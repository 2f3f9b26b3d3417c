import InaneOS.Mem.Program

/-!
# Memory that lasts

`vmm_map` does not report that a page table could not be had. `Serves ok K T L vs`
says, of the frames `L` the allocator is about to hand out and the blocks `T` that have
a page table, that this does not happen while the pages `vs` are mapped in order: memory
may run out when a page is to be had, and the load then stops, but not between a page
and its page table. It also says that every frame handed out is `ok`, and that `K`
holds of what is left when all pages are mapped.

The lemmas follow the loops of the loader once more, from the innermost outwards.
-/

namespace InaneOS.Mem

open InaneOS.Lib

/-- The blocks of 512 pages that have a page table. -/
def blocks (m : Mach) (b : Nat) : Prop := b < 2 ^ 27 ∧ Small m (b * 512)

/-- The frames `L` serve the pages in turn. -/
def Serves (ok : Nat → Prop) (K : (Nat → Prop) → List Nat → Prop) :
    (Nat → Prop) → List Nat → List Nat → Prop
  | T, L, [] => K T L
  | _, [], _ :: _ => True
  | T, f :: L, v :: vs => ok f ∧
    ((T (v / 512) ∧ Serves ok K T L vs) ∨
      (¬ T (v / 512) ∧ ∃ t L', L = t :: L' ∧ ok t ∧
        Serves ok K (fun b => T b ∨ b = v / 512) L' vs))

theorem Serves.imp {ok : Nat → Prop} {K K' : (Nat → Prop) → List Nat → Prop}
    (hK : ∀ T L, K T L → K' T L) : ∀ {vs L : List Nat} {T : Nat → Prop}, Serves ok K T L vs →
    Serves ok K' T L vs
  | [], L, T, h => hK T L h
  | _ :: _, [], _, _ => trivial
  | _ :: _, _ :: _, _, h =>
    ⟨h.1, h.2.imp (fun hs => ⟨hs.1, hs.2.imp hK⟩) fun ⟨hT, t, L', hL, hok, hs⟩ =>
      ⟨hT, t, L', hL, hok, hs.imp hK⟩⟩

/-- With two frames for every page nothing can go wrong, and `k` more are left at the end. -/
theorem serves_of_length {ok : Nat → Prop} {K : (Nat → Prop) → List Nat → Prop} {k : Nat}
    (hK : ∀ T L, (∀ f ∈ L, ok f) → k ≤ L.length → K T L) :
    ∀ {vs L : List Nat} {T : Nat → Prop}, (∀ f ∈ L, ok f) → 2 * vs.length + k ≤ L.length →
    Serves ok K T L vs
  | [], L, T, hok, hlen => hK T L hok (by simpa using hlen)
  | _ :: _, [], _, _, _ => trivial
  | v :: vs, f :: L, T, hok, hlen => by
    rw [List.length_cons, List.length_cons] at hlen
    refine ⟨hok f List.mem_cons_self, ?_⟩
    have hrest : ∀ g ∈ L, ok g := fun g hg => hok g (List.mem_cons_of_mem _ hg)
    by_cases hT : T (v / 512)
    · exact Or.inl ⟨hT, serves_of_length hK hrest (by omega)⟩
    · refine Or.inr ⟨hT, ?_⟩
      cases L with
      | nil =>
        rw [List.length_nil] at hlen
        omega
      | cons t L =>
        rw [List.length_cons] at hlen
        exact ⟨t, L, rfl, hrest t List.mem_cons_self,
          serves_of_length hK (fun g hg => hrest g (List.mem_cons_of_mem _ hg)) (by omega)⟩

/-- What came of a step that maps at most `n` pages: no table allocation failed, and the frames it
took are `ok`; if it failed, that was for `F` or because memory has run out, and otherwise `Q`
holds. -/
structure Served (ok : Nat → Prop) (n : Nat) (F : Prop) (Q : Mach → Prop) (m : Mach)
    (r : Bool × Mach) : Prop where
  starved : r.2.starved = m.starved
  taken : ∃ ts, supply m.pmm = ts ++ supply r.2.pmm ∧ ts.length ≤ 2 * n ∧ ∀ f ∈ ts, ok f
  failed : r.1 = false → F ∨ supply r.2.pmm = []
  done : r.1 = true → Q r.2

/-- Two steps in a row. -/
theorem Served.trans {ok : Nat → Prop} {n k : Nat} {F F' : Prop} {Q Q' : Mach → Prop} {m : Mach}
    {r r' : Bool × Mach} (h : Served ok n F Q m r) (h' : Served ok k F' Q' r.2 r') :
    Served ok (n + k) F' Q' m r' := by
  obtain ⟨ts, hs, hlen, hok⟩ := h.taken
  obtain ⟨ts', hs', hlen', hok'⟩ := h'.taken
  refine ⟨h'.starved.trans h.starved, ⟨ts ++ ts', ?_, ?_, fun f hf => ?_⟩, h'.failed, h'.done⟩
  · rw [hs, hs', List.append_assoc]
  · rw [List.length_append]
    omega
  · exact (List.mem_append.mp hf).elim (hok f) (hok' f)

/-- A step that took no frame and went well. -/
theorem Served.still {ok : Nat → Prop} {m m' : Mach} {F : Prop} {Q : Mach → Prop} (n : Nat)
    (hst : m'.starved = m.starved) (hpmm : m'.pmm = m.pmm) (hQ : Q m') :
    Served ok n F Q m (true, m') where
  starved := hst
  taken := ⟨[], by rw [hpmm]; rfl, by simp, by simp⟩
  failed hfail := absurd hfail (by simp)
  done _ := hQ

/-- A step that took no frame and failed. -/
theorem Served.halt {ok : Nat → Prop} {m m' : Mach} {F : Prop} {Q : Mach → Prop} (n : Nat)
    (hst : m'.starved = m.starved) (hpmm : m'.pmm = m.pmm) (hF : F ∨ supply m.pmm = []) :
    Served ok n F Q m (false, m') where
  starved := hst
  taken := ⟨[], by rw [hpmm]; rfl, by simp, by simp⟩
  failed _ := by rw [hpmm]; exact hF
  done hok := absurd hok (by simp)

section

variable {I : Nat → Prop} {m₁ : Mach} {ok : Nat → Prop} {K : (Nat → Prop) → List Nat → Prop}

/-- Which blocks have a page table behind `vmm_map`. -/
theorem small_map {m m' : Mach} {l : List Nat} {v : Nat} (hw' : Wf m')
    (hkeep : ∀ p g, m.node p = some g → m'.node p = some g)
    (htable : ∀ g, IsTable m' g → IsTable m g ∨ g ∈ l) (hv : v < 2 ^ 36) (hsm : Small m' v)
    (hl : (Small m v → l = []) ∧ (¬ Small m v → ∃ n, l = [n])) {w : Nat} (hw : w < 2 ^ 36) :
    Small m' w ↔ Small m w ∨ w / 512 = v / 512 := by
  -- a page table of the old tree is the page table of the same pages
  have hold : ∀ {u t : Nat}, m'.node (path u 3) = some t → IsTable m t → Small m u := by
    intro u t ht ⟨q, hq⟩
    have hpath : q = path u 3 := hw'.tree q (path u 3) t (hkeep q t hq) ht
    exact ⟨t, hpath ▸ hq⟩
  obtain ⟨tv, htv⟩ := hsm
  constructor
  · intro ⟨t, ht⟩
    rcases htable t ⟨_, ht⟩ with hin | hin
    · exact Or.inl (hold ht hin)
    · right
      by_cases hsmv : Small m v
      · rw [hl.1 hsmv] at hin
        exact absurd hin (by simp)
      · obtain ⟨n, hn⟩ := hl.2 hsmv
        have hnew : tv ∈ l := (htable tv ⟨_, htv⟩).resolve_left fun hin' => hsmv (hold htv hin')
        rw [hn, List.mem_singleton] at hin hnew
        rw [hin, ← hnew] at ht
        exact path_three_inj hw hv (hw'.tree _ _ tv ht htv)
  · intro hor
    rcases hor with ⟨t, ht⟩ | hblock
    · exact ⟨t, hkeep _ _ ht⟩
    · exact ⟨tv, by rw [path_three_congr hblock]; exact htv⟩

/-- The pages the loader may map are mapped or can be: as `boot.S` leaves them. -/
def AllDense (m : Mach) : Prop := ∀ v < 262146, Dense m v

theorem Load.null_free {ms : List Mapping} {l sp : List Nat} {m : Mach} (h : Load I m₁ ms l sp m)
    (hnull : 0 ∉ Mem.supply m₁.pmm) : 0 ∉ Mem.supply m.pmm := by
  obtain ⟨ts, hs, -⟩ := h.supply
  intro hin
  rw [hs] at hnull
  exact hnull (List.mem_append_right _ hin)

/-- **A page is mapped** when the next frame serves it. -/
theorem map_serves (hlow : Low m₁) (hdense : AllDense m₁) (hnull : 0 ∉ supply m₁.pmm)
    {ms : List Mapping} {l sp : List Nat} {m : Mach} {f : Nat} (h : Load I m₁ ms l (f :: sp) m)
    {v flags : Nat} (hv : v < 262146) {L : List Nat} (hL : supply m.pmm = L)
    {Q : (Nat → Prop) → List Nat → Prop}
    (hserve : (blocks m (v / 512) ∧ Q (blocks m) L) ∨
      (¬ blocks m (v / 512) ∧ ∃ t L', L = t :: L' ∧ ok t ∧
        Q (fun b => blocks m b ∨ b = v / 512) L')) :
    ∃ l' L', Load I m₁ (⟨v, f, flags⟩ :: ms) (l ++ l') sp (vmmMap (v * 4096) (f * 4096) flags m) ∧
      L = l' ++ L' ∧ supply (vmmMap (v * 4096) (f * 4096) flags m).pmm = L' ∧
      l'.length ≤ 1 ∧ (∀ g ∈ l', ok g) ∧
      Q (blocks (vmmMap (v * 4096) (f * 4096) flags m)) L' := by
  have hd : Dense m v := h.dense (by omega) (hdense v hv)
  have hblock : blocks m (v / 512) ↔ Small m v := by
    unfold blocks Small
    rw [path_three_congr (show v / 512 * 512 / 512 = v / 512 by omega)]
    exact and_iff_right (by omega)
  rcases h.map (show v < 2 ^ 27 by omega) (h.low hlow).present with
    ⟨-, hno, hshort⟩ | ⟨l', hload, hkeep, hsup, hsmall, hnew⟩
  · -- the allocation cannot have failed: a frame is there
    exfalso
    rcases hserve with ⟨hb, -⟩ | ⟨-, t, L', hLt, -⟩
    · exact hno (hblock.mp hb)
    · have ht0 : t = 0 := hshort hd t L' (hL.trans hLt)
      exact h.null_free hnull (by rw [hL, hLt, ht0]; exact List.mem_cons_self)
  · have htable : ∀ g, IsTable (vmmMap (v * 4096) (f * 4096) flags m) g → IsTable m g ∨ g ∈ l' := by
      intro g hg
      rcases (hload.table g).mp hg with hold | hin
      · exact Or.inl ((h.table g).mpr (Or.inl hold))
      · exact (List.mem_append.mp hin).imp_left fun hin => (h.table g).mpr (Or.inr hin)
    have hsm : Small (vmmMap (v * 4096) (f * 4096) flags m) v := hload.small _ List.mem_cons_self
    have hblocks : blocks (vmmMap (v * 4096) (f * 4096) flags m) =
        fun b => blocks m b ∨ b = v / 512 := by
      funext b
      unfold blocks
      rw [eq_iff_iff]
      by_cases hb : b < 2 ^ 27
      · rw [small_map hload.wf hkeep htable (by omega) hsm ⟨hsmall, hnew hd⟩ (by omega),
          show b * 512 / 512 = b by omega]
        exact ⟨fun hin => hin.2.imp_left fun hs => ⟨hb, hs⟩,
          fun hin => ⟨hb, hin.imp_left And.right⟩⟩
      · exact ⟨fun hin => absurd hin.1 hb, fun hin => hin.elim (fun hs => absurd hs.1 hb)
          fun he => by omega⟩
    rcases hserve with ⟨hb, hQ⟩ | ⟨hb, t, L', hLt, hok, hQ⟩
    · have hl' : l' = [] := hsmall (hblock.mp hb)
      rw [hl'] at hload hsup
      refine ⟨[], L, hload, rfl, hsup.symm.trans hL, by simp, by simp, ?_⟩
      have hsame : blocks (vmmMap (v * 4096) (f * 4096) flags m) = blocks m := by
        rw [hblocks]
        funext b
        rw [eq_iff_iff]
        exact ⟨fun hin => hin.elim id fun he => he ▸ hb, Or.inl⟩
      rw [hsame]
      exact hQ
    · obtain ⟨n, hn⟩ := hnew hd fun hs => hb (hblock.mpr hs)
      rw [hn] at hload hsup
      obtain ⟨rfl, hrest⟩ := List.cons.inj ((hL.trans hLt).symm.trans hsup)
      refine ⟨[t], L', hload, hLt, hrest.symm, by simp, by simpa using hok, ?_⟩
      rw [hblocks]
      exact hQ

/-! ## A segment -/

/-- **The loop over the pages.** -/
theorem mapPages_serves (hlow : Low m₁) (hdense : AllDense m₁) (hnull : 0 ∉ supply m₁.pmm)
    (w : Nat) :
    ∀ {n v : Nat} {ms : List Mapping} {l rest : List Nat} {m : Mach}, Load I m₁ ms l [] m →
    v + n ≤ 262144 → Serves ok K (blocks m) (supply m.pmm) (List.range' v n ++ rest) →
    Served ok n False (fun m' => Serves ok K (blocks m') (supply m'.pmm) rest) m
      (mapPages w n (v * 4096) m)
  | 0, _, _, _, _, m, _, _, hserve =>
    Served.still 0 rfl rfl hserve
  | n + 1, v, ms, l, rest, m, h, hn, hserve => by
    cases hs : supply m.pmm with
    | nil =>
      rw [mapPages_nil hs]
      exact Served.halt _ rfl rfl (Or.inr hs)
    | cons f L =>
      have hf : f ≠ 0 := by
        intro he
        exact h.null_free hnull (by rw [hs, he]; exact List.mem_cons_self)
      rw [hs, List.range'_succ, List.cons_append] at hserve
      obtain ⟨hokf, hserve⟩ := hserve
      have htake : Load I m₁ ms l [f] { m with pmm := m.pmm.take f } := h.take hs hf
      obtain ⟨l', L', hload, hL, hsup, hlen, hokl, hrest⟩ := @map_serves I m₁ ok hlow hdense hnull
        ms l [] _ f htake v (5 + w) (by omega) L (supply_take hs)
        (fun T L => Serves ok K T L (List.range' (v + 1) n ++ rest)) hserve
      rw [mapPages_cons hs hf, show v * 4096 + 4096 = (v + 1) * 4096 by omega]
      have hstarved := hload.starved.trans h.starved.symm
      rw [← hsup] at hrest
      have hih := mapPages_serves hlow hdense hnull w hload (by omega) hrest
      obtain ⟨ts, hts, htslen, htsok⟩ := hih.taken
      refine ⟨hih.starved.trans hstarved, ⟨f :: (l' ++ ts), ?_, ?_, fun g hg => ?_⟩,
        hih.failed, hih.done⟩
      · rw [hs, hL, ← hsup, hts, List.cons_append, List.append_assoc]
      · rw [List.length_cons, List.length_append]
        omega
      · rcases List.mem_cons.mp hg with rfl | hg
        · exact hokf
        · exact (List.mem_append.mp hg).elim (hokl g) (htsok g)

theorem wanted_fst (w v n : Nat) : (wanted w v n).map Prod.fst = List.range' v n := by
  rw [wanted, List.map_map]
  exact List.map_id _

section Segment

variable {p : Phdr} {img len : Nat}

/-- The same tables and the same allocator serve the same pages. -/
theorem serves_congr {m m' : Mach} (hnode : ∀ q, m'.node q = m.node q) (hpmm : m'.pmm = m.pmm)
    {vs : List Nat} (h : Serves ok K (blocks m) (supply m.pmm) vs) :
    Serves ok K (blocks m') (supply m'.pmm) vs := by
  have hblocks : blocks m' = blocks m := by
    funext b
    unfold blocks Small
    rw [hnode]
  rw [hblocks, hpmm]
  exact h

/-- **One segment.** -/
theorem fillSegment_serves (hw₁ : Wf m₁) (hlow : Low m₁) (hdense : AllDense m₁)
    (hnull : 0 ∉ supply m₁.pmm) (hst₁ : m₁.starved = false) {ms : List Mapping} {l rest : List Nat}
    {m : Mach} (h : Load I m₁ ms l [] m) (hs : p.Sane) (hr : ¬ p.refused len) (hI : p.In I img)
    (hserve : Serves ok K (blocks m) (supply m.pmm) (p.wanted.map Prod.fst ++ rest)) :
    Served ok p.pageCount False (fun m' => Serves ok K (blocks m') (supply m'.pmm) rest) m
      (fillSegment img p m) := by
  rw [Phdr.wanted, wanted_fst] at hserve
  have hmap := mapPages_serves hlow hdense hnull p.writeFlag h (pageCount_le hs hr) hserve
  rw [← Phdr.first] at hmap
  rw [fillSegment_eq]
  by_cases hr1 : (mapPages p.writeFlag p.pageCount p.first m).1 = false
  · rw [if_pos hr1]
    exact ⟨hmap.starved, hmap.taken, fun _ => hmap.failed hr1, fun hok => absurd hok (by simp)⟩
  · have hstarved : (mapPages p.writeFlag p.pageCount p.first m).2.starved = false := by
      rw [hmap.starved, h.starved, hst₁]
    obtain ⟨new, l', m', hload, -, -, hok⟩ := mapSegment_load hlow h hs hr hstarved
    obtain ⟨hm', hmade⟩ := hok (by simpa using hr1)
    rw [← hm'] at hload
    obtain ⟨hok1, -, hnode, hpmm⟩ := fillBytes_load hw₁ hload hs hr hI (pages_of_made hs hr hmade)
    rw [if_neg hr1]
    refine ⟨(fillBytes_starved img p _).trans hmap.starved, ?_, fun hfail => ?_, fun _ => ?_⟩
    · rw [hpmm]
      exact hmap.taken
    · rw [hok1] at hfail
      exact absurd hfail (by simp)
    · exact serves_congr hnode hpmm (hmap.done (by simpa using hr1))

end Segment

/-! ## The image -/

section Image

variable {img len : Nat} {e : Ehdr}

theorem touchBytes_pmm : ∀ (n p : Nat) (m : Mach), (touchBytes n p m).pmm = m.pmm
  | 0, _, _ => rfl
  | n + 1, p, m => touchBytes_pmm n _ (touch p m)

theorem touchBytes_node (q : List Nat) :
    ∀ (n p : Nat) (m : Mach), (touchBytes n p m).node q = m.node q
  | 0, _, _ => rfl
  | n + 1, p, m => touchBytes_node q n _ (touch p m)

theorem wanted_length (p : Phdr) : p.wanted.length = p.pageCount := by
  rw [Phdr.wanted, wanted, List.length_map, List.length_range']

/-- **The loop over the headers.** -/
theorem phdrLoop_serves (hw₁ : Wf m₁) (hlow : Low m₁) (hdense : AllDense m₁)
    (hnull : 0 ∉ supply m₁.pmm) (hst₁ : m₁.starved = false) (n : Nat) :
    ∀ {i : Nat} {ms : List Mapping}
    {l : List Nat} {m : Mach}, Load I m₁ ms l [] m →
    (∀ j, i ≤ j → j < i + n → Readable I m₁ (hdrAddr img e j)) →
    (∀ j, i ≤ j → j < i + n → (phdrAt m₁ (hdrAddr img e j)).Good I img len) →
    ∀ {plan : List (Nat × Nat) × Bool},
      planFrom len (fun j => phdrAt m₁ (hdrAddr img e j)) n i = plan →
    Serves ok (fun T L => plan.2 = true → K T L) (blocks m) (supply m.pmm) (plan.1.map Prod.fst) →
    Served ok plan.1.length (plan.2 = false) (fun m' => K (blocks m') (supply m'.pmm)) m
      (phdrLoop img len e n i m) := by
  induction n with
  | zero =>
    intro i ms l m h _ _ plan hplan hserve
    subst hplan
    exact Served.still _ rfl rfl (hserve rfl)
  | succ n ih =>
    intro i ms l m h hread hgood plan hplan hserve
    have hhdr := hread i (Nat.le_refl _) (by omega)
    have hlook := h.lookBytes hhdr.fits hhdr.mem
    have hread' := fun j (h1 : i + 1 ≤ j) (h2 : j < i + 1 + n) => hread j (by omega) (by omega)
    have hgood' := fun j (h1 : i + 1 ≤ j) (h2 : j < i + 1 + n) => hgood j (by omega) (by omega)
    -- reading the header takes nothing
    have hstill : Served ok 0 False (fun _ => True) m
      (true, touchBytes phdrSize (hdrAddr img e i) m) :=
      Served.still 0 (touchBytes_starved _ _ _) (touchBytes_pmm _ _ _) trivial
    have hserve' := @serves_congr ok (fun T L => plan.2 = true → K T L) m
      (touchBytes phdrSize (hdrAddr img e i) m) (fun q => touchBytes_node q _ _ _)
        (touchBytes_pmm _ _ _)
      _ hserve
    obtain ⟨r, hr⟩ : ∃ r, loadSegment img len (phdrAt m₁ (hdrAddr img e i))
      (touchBytes phdrSize (hdrAddr img e i) m) = r := ⟨_, rfl⟩
    rw [phdrLoop_succ n i (r := r) (by rw [hhdr.same ms l m h]; exact hr)]
    rw [planFrom] at hplan
    by_cases hskip : (phdrAt m₁ (hdrAddr img e i)).skipped
    · rw [loadSegment, if_pos hskip] at hr
      rw [if_pos hskip] at hplan
      subst hr
      have hnext := hstill.trans (ih hlook hread' hgood' hplan hserve')
      rw [Nat.zero_add] at hnext
      exact hnext
    · rw [loadSegment, if_neg hskip] at hr
      rw [if_neg hskip] at hplan
      by_cases href : (phdrAt m₁ (hdrAddr img e i)).refused len
      · rw [if_pos href] at hr hplan
        have hfail : r.1 = false := by rw [← hr]
        have hstate : r.2 = touchBytes phdrSize (hdrAddr img e i) m := by rw [← hr]
        rw [if_pos hfail, hstate, ← hplan]
        exact Served.halt _ (touchBytes_starved _ _ _) (touchBytes_pmm _ _ _) (Or.inl rfl)
      · rw [if_neg href] at hr hplan
        obtain ⟨hsane, hin⟩ := hgood i (Nat.le_refl _) (by omega) hskip href
        obtain ⟨rest, hrest⟩ : ∃ rest,
          planFrom len (fun j => phdrAt m₁ (hdrAddr img e j)) n (i + 1) = rest := ⟨_, rfl⟩
        rw [hrest] at hplan
        subst hplan
        dsimp only at hserve' ⊢
        rw [List.map_append] at hserve'
        have hseg := fillSegment_serves hw₁ hlow hdense hnull hst₁ hlook hsane href hin hserve'
        rw [hr] at hseg
        have hboth := hstill.trans hseg
        have hlen : ((phdrAt m₁ (hdrAddr img e i)).wanted ++ rest.1).length =
            0 + (phdrAt m₁ (hdrAddr img e i)).pageCount + rest.1.length := by
          rw [List.length_append, wanted_length]
          omega
        rw [hlen]
        by_cases hok : r.1 = false
        · rw [if_pos hok]
          obtain ⟨ts, hts, htslen, htsok⟩ := hboth.taken
          refine ⟨hboth.starved, ⟨ts, hts, by omega, htsok⟩, fun _ => ?_,
            fun hok' => absurd hok' (by simp)⟩
          exact Or.inr ((hboth.failed hok).resolve_left id)
        · have htrue : r.1 = true := by simpa using hok
          have hstarved : r.2.starved = false := by
            rw [hboth.starved, h.starved, hst₁]
          have hout := fillSegment_load hw₁ hlow hlook hsane href hin (by rw [hr]; exact hstarved)
          rw [hr] at hout
          obtain ⟨new, l', m', hload, -, -, hdone⟩ := hout
          rw [← (hdone htrue).1] at hload
          rw [if_neg hok]
          exact hboth.trans (ih hload hread' hgood' hrest (hseg.done htrue))

/-- **`elf_load`.** -/
theorem elfLoad_serves (hw₁ : Wf m₁) (hlow : Low m₁) (hdense : AllDense m₁)
    (hnull : 0 ∉ supply m₁.pmm) (hst₁ : m₁.starved = false) (him : ImageOk I m₁ img len)
    (hserve : Serves ok (fun T L => (elfPlan m₁ img len).2 = true → K T L) (blocks m₁)
      (supply m₁.pmm)
      ((elfPlan m₁ img len).1.map Prod.fst)) :
    Served ok (elfPlan m₁ img len).1.length ((elfPlan m₁ img len).2 = false)
      (fun m' => K (blocks m') (supply m'.pmm)) m₁
      ((elfLoad img len m₁).1.isSome, (elfLoad img len m₁).2) := by
  have hrefl : Load I m₁ [] [] [] m₁ := Load.refl hw₁
  unfold elfLoad
  unfold elfPlan at hserve ⊢
  by_cases hlen : len < ehdrSize
  · rw [if_pos (Or.inl hlen)] at hserve ⊢
    rw [if_pos hlen]
    exact Served.halt _ rfl rfl (Or.inl rfl)
  · obtain ⟨hfit, hI⟩ := him.head (by omega)
    have hlook := hrefl.lookBytes hfit hI
    rw [if_neg hlen]
    dsimp only
    by_cases hacc : (ehdrAt m₁ img).accepted len
    · rw [if_neg (not_not.mpr hacc)]
      rw [if_neg (not_or.mpr ⟨hlen, not_not.mpr hacc⟩)] at hserve ⊢
      dsimp only at hserve ⊢
      obtain ⟨plan, hplan⟩ : ∃ plan, planFrom len
        (fun j => phdrAt m₁ (hdrAddr img (ehdrAt m₁ img) j)) (ehdrAt m₁ img).phnum 0 = plan :=
          ⟨_, rfl⟩
      obtain ⟨entryOk, hentry⟩ : ∃ b, (!decide ((ehdrAt m₁ img).entry < userMin ∨
        (ehdrAt m₁ img).entry ≥ userMax)) = b := ⟨_, rfl⟩
      rw [hplan, hentry] at hserve ⊢
      have hserve' : Serves ok (fun T L => plan.2 = true → entryOk = true → K T L)
          (blocks (touchBytes ehdrSize img m₁)) (supply (touchBytes ehdrSize img m₁).pmm)
          (plan.1.map Prod.fst) := by
        refine serves_congr (fun q => touchBytes_node q _ _ _) (touchBytes_pmm _ _ _)
          (hserve.imp ?_)
        intro T L hk h1 h2
        exact hk (by rw [h1, h2]; rfl)
      have hloop := phdrLoop_serves (i := 0) hw₁ hlow hdense hnull hst₁ (ehdrAt m₁ img).phnum hlook
        (fun j _ hj => him.read (by omega) hacc j (by omega))
        (fun j _ hj => him.good (by omega) hacc j (by omega)) hplan hserve'
      have hstill : Served ok 0 False (fun _ => True) m₁ (true, touchBytes ehdrSize img m₁) :=
        Served.still 0 (touchBytes_starved _ _ _) (touchBytes_pmm _ _ _) trivial
      have hboth := hstill.trans hloop
      rw [Nat.zero_add] at hboth
      obtain ⟨r, hr⟩ : ∃ r, phdrLoop img len (ehdrAt m₁ img) (ehdrAt m₁ img).phnum 0
        (touchBytes ehdrSize img m₁) = r := ⟨_, rfl⟩
      rw [hr] at hboth ⊢
      by_cases hok : r.1 = false
      · rw [if_pos hok]
        refine ⟨hboth.starved, hboth.taken, fun _ => ?_, fun hok' => absurd hok' (by simp)⟩
        exact (hboth.failed hok).imp_left fun hp => by rw [hp]; rfl
      · have htrue : r.1 = true := by simpa using hok
        rw [if_neg hok]
        by_cases hout : (ehdrAt m₁ img).entry < userMin ∨ (ehdrAt m₁ img).entry ≥ userMax
        · rw [decide_eq_true hout] at hentry
          rw [if_pos hout]
          refine ⟨hboth.starved, hboth.taken, fun _ => Or.inl ?_, fun hok' => absurd hok' (by simp)⟩
          rw [← hentry]
          exact Bool.and_false _
        · rw [decide_eq_false hout] at hentry
          rw [if_neg hout]
          exact ⟨hboth.starved, hboth.taken, fun hfail => absurd hfail (by simp),
            fun _ => hboth.done htrue hentry.symm⟩
    · rw [if_pos (Or.inr hacc)] at hserve ⊢
      rw [if_pos hacc]
      exact Served.halt _ (touchBytes_starved _ _ _) (touchBytes_pmm _ _ _) (Or.inl rfl)

end Image

/-! ## The stack -/

/-- The frames that are left serve the stack. A lone frame is taken and not used: `lone` says
whether that may happen. -/
def StackServes (ok : Nat → Prop) (lone : Prop) (T : Nat → Prop) : List Nat → Prop
  | [] => True
  | [_] => lone
  | s1 :: s2 :: L => ok s1 ∧ ok s2 ∧ (T 512 ∨ ∃ t L', L = t :: L' ∧ ok t)

/-- **The stack mapping.** -/
theorem mapStack_served (hlow : Low m₁) (hdense : AllDense m₁) (hnull : 0 ∉ supply m₁.pmm)
    {lone : Prop} {ms : List Mapping} {l : List Nat} {m : Mach} (h : Load I m₁ ms l [] m)
    (hserve : StackServes ok lone (blocks m) (supply m.pmm)) :
    ∃ new l' sp, Load I m₁ (new ++ ms) (l ++ l') sp (mapStack m).2 ∧ made new <+: stackWant ∧
      (∀ f, f ∈ l' ∨ f ∈ frames new → ok f) ∧ (¬ lone → sp = []) ∧
      ((mapStack m).1 = true → made new = stackWant ∧ sp = []) ∧
      ((mapStack m).1 = false → (supply m.pmm).length ≤ 1) := by
  have hkeep : ∀ {sp : List Nat} {mk : Mach}, Load I m₁ ms l sp mk →
      Load I m₁ ([] ++ ms) (l ++ []) sp mk := by
    intro sp mk hk
    rw [List.append_nil]
    exact hk
  have hne : ∀ f ∈ supply m.pmm, f ≠ 0 := by
    intro f hf he
    exact h.null_free hnull (he ▸ hf)
  match hs : supply m.pmm with
  | [] =>
    rw [mapStack_nil hs]
    exact ⟨[], [], [], hkeep h, List.nil_prefix, by simp [frames], fun _ => rfl,
      fun hok => absurd hok (by simp), fun _ => by simp⟩
  | [f] =>
    have hf : f ≠ 0 := hne f (by rw [hs]; simp)
    rw [hs] at hserve
    rw [mapStack_one hs]
    exact ⟨[], [], [f], hkeep (h.take hs hf), List.nil_prefix, by simp [frames],
      fun hno => absurd hserve hno, fun hok => absurd hok (by simp), fun _ => by simp⟩
  | f :: g :: rest =>
    have hf : f ≠ 0 := hne f (by rw [hs]; simp)
    have hg : g ≠ 0 := hne g (by rw [hs]; simp)
    rw [hs] at hserve
    obtain ⟨hokf, hokg, htable⟩ := hserve
    have htake2 : Load I m₁ ms l [f, g] { m with pmm := (m.pmm.take f).take g } :=
      (h.take hs hf).take (supply_take hs) hg
    have hrest : supply ((m.pmm.take f).take g) = rest := supply_take (supply_take hs)
    -- the first page brings the table of the block, the second finds it there
    have hfirst : (blocks { m with pmm := (m.pmm.take f).take g } (0x40000 / 512) ∧
          blocks m 512) ∨
        (¬ blocks { m with pmm := (m.pmm.take f).take g } (0x40000 / 512) ∧ ∃ t L',
          rest = t :: L' ∧ ok t ∧
          (blocks m 512 ∨ 512 = 0x40000 / 512)) := by
      by_cases hT : blocks m 512
      · exact Or.inl ⟨hT, hT⟩
      · obtain ⟨t, L', hL, hokt⟩ := htable.resolve_left hT
        exact Or.inr ⟨hT, t, L', hL, hokt, Or.inr (by omega)⟩
    obtain ⟨l₁, L₁, hload₁, -, hsup₁, -, hok₁, hblock₁⟩ :=
      @map_serves I m₁ ok hlow hdense hnull ms l [g] _ f
      htake2 0x40000 7 (by omega) rest hrest (fun T _ => T 512) hfirst
    obtain ⟨l₂, L₂, hload₂, -, -, -, hok₂, -⟩ := @map_serves I m₁ ok hlow hdense hnull _ _ [] _ g
      hload₁ 0x40001 7 (by omega) L₁ hsup₁ (fun _ _ => True) (Or.inl ⟨hblock₁, trivial⟩)
    rw [List.append_assoc] at hload₂
    rw [mapStack_two hs hf hg]
    refine ⟨[⟨0x40001, g, 7⟩, ⟨0x40000, f, 7⟩], l₁ ++ l₂, [], hload₂, List.prefix_rfl,
      fun x hx => ?_,
      fun _ => rfl, fun _ => ⟨rfl, rfl⟩, fun hfail => absurd hfail (by simp)⟩
    rcases hx with hx | hx
    · exact (List.mem_append.mp hx).elim (hok₁ x) (hok₂ x)
    · rcases List.mem_cons.mp hx with rfl | hx
      · exact hokg
      · rw [List.mem_singleton.mp hx]
        exact hokf

/-! ## The call -/

/-- The frames the load took are `ok` when all that left the supply are. -/
theorem Load.taken_ok {ms : List Mapping} {l : List Nat} {m : Mach} (h : Load I m₁ ms l [] m)
    {ts : List Nat} (hs : Mem.supply m₁.pmm = ts ++ Mem.supply m.pmm) (hok : ∀ f ∈ ts, ok f) :
    ∀ f, f ∈ l ∨ f ∈ frames ms → ok f := by
  obtain ⟨ts', hs', -, hmem⟩ := h.supply
  have hts : ts' = ts := List.append_cancel_right (hs'.symm.trans hs)
  intro f hf
  exact hok f (hts ▸ (hmem f).mpr (hf.imp_right Or.inl))

theorem Stop.eq {m m' : Mach} (h : Stop m' m) (hnull : 0 ∉ supply m'.pmm) : m = m' := by
  obtain ⟨q, hm, hq⟩ := h
  rw [hm, hq hnull]

/-- **A whole call up to the stack mapping**, when the memory lasts. -/
theorem loadProgram_served {img len : Nat} {m : Mach} {lone : Prop}
    (hm₁ : vmmUnmapRange userMin ustackTop m = m₁) (hw₁ : Wf m₁) (hlow : Low m₁)
    (hdense : AllDense m₁)
    (hnull : 0 ∉ supply m₁.pmm) (hst₁ : m₁.starved = false) (him : ImageOk I m₁ img len)
    (hserve : Serves ok (fun T L => (elfPlan m₁ img len).2 = true → StackServes ok lone T L)
      (blocks m₁) (supply m₁.pmm) ((elfPlan m₁ img len).1.map Prod.fst)) :
    ∃ ms l sp, Load I m₁ ms l sp (loadProgram img len m).2 ∧ made ms <+: programPlan m₁ img len ∧
      (∀ f, f ∈ l ∨ f ∈ frames ms → ok f) ∧ (¬ lone → sp = []) ∧
      ((loadProgram img len m).1.isSome = true → made ms = programPlan m₁ img len ∧ sp = [] ∧
        (elfPlan m₁ img len).2 = true) ∧
      ((loadProgram img len m).1 = none → (elfPlan m₁ img len).2 = false ∨
        (supply m₁.pmm).length ≤ 2 * (elfPlan m₁ img len).1.length + 1) := by
  have helf := elfLoad_serves hw₁ hlow hdense hnull hst₁ him hserve
  obtain ⟨ts, hts, htslen, htsok⟩ := helf.taken
  obtain ⟨⟨new, l', m', hload, hstop, hpre, hdone⟩, hplan⟩ := elfLoad_load hw₁ hlow him
    (helf.starved.trans hst₁)
  rw [List.append_nil, List.nil_append] at hload
  have hm' : (elfLoad img len m₁).2 = m' := hstop.eq (hload.null_free hnull)
  rw [← hm'] at hload
  have hok := hload.taken_ok hts htsok
  cases hres : (elfLoad img len m₁).1 with
  | none =>
    have hrun := @loadProgram_none img len m (by rw [hm₁]; exact hres)
    rw [hm₁] at hrun
    rw [hrun]
    refine ⟨new, l', [], hload, hpre.trans (List.prefix_append _ _), hok, fun _ => rfl,
      fun hok' => absurd hok' (by simp), fun _ => ?_⟩
    refine (helf.failed (by rw [hres]; rfl)).imp_right fun hempty => ?_
    have hts' : supply m₁.pmm = ts ++ supply (elfLoad img len m₁).2.pmm := hts
    have hempty' : supply (elfLoad img len m₁).2.pmm = [] := hempty
    rw [hts', hempty', List.append_nil]
    omega
  | some entry =>
    have hsome : (elfLoad img len m₁).1.isSome = true := by rw [hres]; rfl
    have hmade := (hdone hsome).2
    have hstack := helf.done hsome
    obtain ⟨new', l'', sp, hload', hpre', hok', hsp, hdone', hfail'⟩ :=
      mapStack_served hlow hdense hnull hload hstack
    have hstate := @loadProgram_state img len m entry (by rw [hm₁]; exact hres)
    have hrun := @loadProgram_some img len m entry (by rw [hm₁]; exact hres)
    rw [hm₁] at hstate hrun
    have hwant : programPlan m₁ img len = made new ++ stackWant := by
      rw [programPlan, if_pos (hplan hsome), ← hmade]
    rw [hstate]
    refine ⟨new' ++ new, l' ++ l'', sp, hload', ?_, fun f hf => ?_, hsp, fun hok'' => ?_,
      fun hnone => ?_⟩
    · rw [made_append, hwant]
      exact (List.prefix_append_right_inj _).mpr hpre'
    · rw [List.mem_append, frames, List.map_append, List.mem_append] at hf
      rcases hf with (hf | hf) | hf | hf
      · exact hok f (Or.inl hf)
      · exact hok' f (Or.inl hf)
      · exact hok' f (Or.inr hf)
      · exact hok f (Or.inr hf)
    · have hstackok : (mapStack (elfLoad img len m₁).2).1 = true := by
        by_contra hne
        rw [hrun, if_pos (by simpa using hne)] at hok''
        exact absurd hok'' (by simp)
      obtain ⟨hmade', hsp'⟩ := hdone' hstackok
      exact ⟨by rw [made_append, hwant, hmade'], hsp', hplan hsome⟩
    · right
      have hstackfail : (mapStack (elfLoad img len m₁).2).1 = false := by
        by_contra hne
        rw [hrun, if_neg hne] at hnone
        exact absurd hnone (by simp)
      have hts' : supply m₁.pmm = ts ++ supply (elfLoad img len m₁).2.pmm := hts
      have hleft := hfail' hstackfail
      rw [hts', List.length_append]
      omega

end

end InaneOS.Mem
