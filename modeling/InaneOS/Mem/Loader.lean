import InaneOS.Mem.Load

/-!
# The loops of the loader

Each loop of `elf_load` has one lemma in terms of `Load`. `Outcome … want r` says that
the loop with result `r` set out to map the pages `want`, in this order, and mapped a
prefix of them; all of them when it returned normally.

A table allocation that fails is the one thing these lemmas leave open. `Fits` says,
from the number of free frames and the blocks that have a page table, that memory does
not run out there: it may run out when a page is to be had, and `elf_load` then returns
-1, but never between a page and its page table.
-/

namespace InaneOS.Mem

open InaneOS.Lib

/-- `m` is `m'` after a failed `pmm_alloc_frame`. -/
def Stop (m' m : Mach) : Prop :=
  ∃ q, m = { m' with pmm := q } ∧ (0 ∉ supply m'.pmm → q = m'.pmm)

theorem Stop.refl (m : Mach) : Stop m m := ⟨m.pmm, rfl, fun _ => rfl⟩

/-- What was mapped, in the order of the calls: page and flags. -/
def made (ms : List Mapping) : List (Nat × Nat) := (ms.map fun x => (x.page, x.flags)).reverse

theorem made_append (new ms : List Mapping) : made (new ++ ms) = made ms ++ made new := by
  rw [made, List.map_append, List.reverse_append]
  rfl

theorem mem_made {ms : List Mapping} {x : Mapping} (hx : x ∈ ms) : (x.page, x.flags) ∈ made ms :=
  List.mem_reverse.mpr (List.mem_map.mpr ⟨x, hx, rfl⟩)

theorem made_pages (ms : List Mapping) : (made ms).map Prod.fst = (pages ms).reverse := by
  rw [made, List.map_reverse, List.map_map]
  rfl

section Loops

variable {I : Nat → Prop} {m₁ : Mach}

/-- The loop that returned `r` mapped a prefix of `want`. -/
def Outcome (I : Nat → Prop) (m₁ : Mach) (ms : List Mapping) (l : List Nat)
    (want : List (Nat × Nat))
    (r : Bool × Mach) : Prop :=
  ∃ new l' m', Load I m₁ (new ++ ms) (l ++ l') [] m' ∧ Stop m' r.2 ∧ made new <+: want ∧
    (r.1 = true → r.2 = m' ∧ made new = want)

theorem Outcome.done {ms : List Mapping} {l : List Nat} {m : Mach} (h : Load I m₁ ms l [] m) :
    Outcome I m₁ ms l [] (true, m) :=
  ⟨[], [], m, by rw [List.append_nil]; exact h, Stop.refl m, List.prefix_rfl, fun _ => ⟨rfl, rfl⟩⟩

theorem Outcome.failed {ms : List Mapping} {l : List Nat} {m : Mach} (h : Load I m₁ ms l [] m)
    (want : List (Nat × Nat)) {q : Pmm} (hq : 0 ∉ supply m.pmm → q = m.pmm) :
    Outcome I m₁ ms l want (false, { m with pmm := q }) :=
  ⟨[], [], m, by rw [List.append_nil]; exact h, ⟨q, rfl, hq⟩, List.nil_prefix,
    fun hok => absurd hok (by simp)⟩

theorem Outcome.refused {ms : List Mapping} {l : List Nat} {m : Mach} (h : Load I m₁ ms l [] m)
    (want : List (Nat × Nat)) : Outcome I m₁ ms l want (false, m) :=
  ⟨[], [], m, by rw [List.append_nil]; exact h, Stop.refl m, List.nil_prefix,
    fun hok => absurd hok (by simp)⟩

/-- A loop that failed leaves the rest undone. -/
theorem Outcome.stop {ms : List Mapping} {l : List Nat} {want : List (Nat × Nat)} {r : Bool × Mach}
    (h : Outcome I m₁ ms l want r) (rest : List (Nat × Nat)) :
    Outcome I m₁ ms l (want ++ rest) (false, r.2) := by
  obtain ⟨new, l', m', hload, hstop, hpre, -⟩ := h
  exact ⟨new, l', m', hload, hstop, hpre.trans (List.prefix_append _ _),
    fun hok => absurd hok (by simp)⟩

/-- More was mapped first. -/
theorem Outcome.after {ms new : List Mapping} {l l' : List Nat} {want : List (Nat × Nat)}
    {r : Bool × Mach} (h : Outcome I m₁ (new ++ ms) (l ++ l') want r) :
    Outcome I m₁ ms l (made new ++ want) r := by
  obtain ⟨new', l'', m', hload, hstop, hpre, hok⟩ := h
  rw [← List.append_assoc, List.append_assoc l] at hload
  refine ⟨new' ++ new, l' ++ l'', m', hload, hstop, ?_, fun ht => ⟨(hok ht).1, ?_⟩⟩
  · rw [made_append]
    exact (List.prefix_append_right_inj _).mpr hpre
  · rw [made_append, (hok ht).2]

/-! ## Low addresses -/

/-- `pml4[0]` leads to a table, as `boot.S` leaves it. -/
def Low (m : Mach) : Prop := ∃ t, m.node [0] = some t

theorem Low.present {m : Mach} (h : Low m) : Mem.present (m.mem m.pml4 0) := by
  obtain ⟨t, ht⟩ := h
  have hnext := Radix.node_cons (show 0 < tables.width from by decide)
    (show tables.node m.mem m.pml4 [] = some m.pml4 from rfl)
  exact (next_some (hnext.symm.trans ht)).2.1

theorem Load.low {ms : List Mapping} {l sp : List Nat} {m : Mach} (h : Load I m₁ ms l sp m)
    (hlow : Low m₁) : Low m := by
  obtain ⟨t, ht⟩ := hlow
  exact ⟨t, h.node _ _ ht⟩

/-! ## The pages of a segment -/

theorem mapPages_starved (w : Nat) : ∀ (n va : Nat) {m : Mach}, m.starved = true →
    (mapPages w n va m).2.starved = true
  | 0, _, _, h => h
  | n + 1, va, m, h => by
    rw [mapPages]
    dsimp only
    split
    · exact h
    · exact mapPages_starved w n _ (vmmMap_starved _ _ _ h)

section MapPages

variable {m : Mach} {w n va : Nat}

theorem mapPages_nil (hs : supply m.pmm = []) : mapPages w (n + 1) va m = (false, m) := by
  rw [mapPages, pmmAllocFrame_nil hs]
  rfl

theorem mapPages_null {rest : List Nat} (hs : supply m.pmm = 0 :: rest) :
    mapPages w (n + 1) va m = (false, { m with pmm := m.pmm.take 0 }) := by
  rw [mapPages, pmmAllocFrame_cons hs]
  rfl

theorem mapPages_cons {f : Nat} {rest : List Nat} (hs : supply m.pmm = f :: rest) (hf : f ≠ 0) :
    mapPages w (n + 1) va m = mapPages w n (va + 4096)
      (vmmMap va (f * 4096) (5 + w) { m with pmm := m.pmm.take f }) := by
  rw [mapPages, pmmAllocFrame_cons hs]
  exact if_neg (Nat.mul_ne_zero hf (by decide))

end MapPages

/-- The pages from `v` on with the flags of the segment. -/
def wanted (w v n : Nat) : List (Nat × Nat) := (List.range' v n).map fun p => (p, 5 + w)

theorem wanted_succ (w v n : Nat) : wanted w v (n + 1) = (v, 5 + w) :: wanted w (v + 1) n := by
  rw [wanted, List.range'_succ, List.map_cons]
  rfl

/-- **The loop over the pages**, unless a table allocation fails. -/
theorem mapPages_load (hlow : Low m₁) (w : Nat) : ∀ {n v : Nat} {ms : List Mapping} {l : List Nat}
    {m : Mach}, Load I m₁ ms l [] m → v + n ≤ 2 ^ 27 →
      (mapPages w n (v * 4096) m).2.starved = false →
    Outcome I m₁ ms l (wanted w v n) (mapPages w n (v * 4096) m)
  | 0, _, _, _, _, h, _, _ => Outcome.done h
  | n + 1, v, ms, l, m, h, hn, hst => by
    cases hs : supply m.pmm with
    | nil =>
      rw [mapPages_nil hs]
      exact Outcome.refused h _
    | cons f rest =>
      by_cases hf : f = 0
      · rw [hf] at hs
        rw [mapPages_null hs]
        exact Outcome.failed h _ fun hno => absurd (by rw [hs]; exact List.mem_cons_self) hno
      · rw [mapPages_cons hs hf, show v * 4096 + 4096 = (v + 1) * 4096 by omega] at hst ⊢
        have htake : Load I m₁ ms l [f] { m with pmm := m.pmm.take f } := h.take hs hf
        rcases htake.map (show v < 2 ^ 27 by omega) (h.low hlow).present with
          ⟨hstarved, -⟩ | ⟨l', hload, -⟩
        · rw [mapPages_starved w n _ hstarved] at hst
          exact absurd hst (by simp)
        · have hrest : Outcome I m₁ ([⟨v, f, 5 + w⟩] ++ ms) (l ++ l') (wanted w (v + 1) n) _ :=
            mapPages_load hlow w hload (by omega) hst
          rw [wanted_succ]
          exact hrest.after

/-! ## The bytes of a segment -/

/-- A page of the program leads to one of its frames. -/
theorem Load.phys {ms : List Mapping} {l : List Nat} {m : Mach} (h : Load I m₁ ms l [] m) {va : Nat}
    (hva : va < 2 ^ 48) (hin : va / 4096 ∈ pages ms) :
    ∃ f ∈ frames ms, f ≠ 0 ∧ vmmPhys va m = f * 4096 + va % 4096 := by
  obtain ⟨x, hx, -, hpte⟩ := h.pte_mapped (show va / 4096 < 2 ^ 36 by omega) hin
  have hin : x.frame ∈ frames ms := List.mem_map.mpr ⟨x, hx, rfl⟩
  refine ⟨x.frame, hin, h.nonnull _ (Or.inl hin), ?_⟩
  have hphys := vmmPhys_eq m (va / 4096) (show va % 4096 < 4096 from Nat.mod_lt _ (by omega))
  rw [hpte, if_pos (leafEntry_present _ _), leafEntry_frame,
    Nat.mul_div_cancel _ (by decide : 0 < 4096), show va / 4096 * 4096 + va % 4096 =
      va by omega] at hphys
  exact hphys

theorem putBytes_step {vaddr n o : Nat} {src : Nat → Mach → Nat × Mach} {m : Mach}
    (hlt : vaddr + o < 2 ^ 64) (h : vmmPhys (vaddr + o) m ≠ 0) : putBytes vaddr src (n + 1) o m =
      putBytes vaddr src n (o + 1) (storeByte (vmmPhys (vaddr + o) m) (src o m).1 (src o m).2) := by
  rw [putBytes, Nat.mod_eq_of_lt hlt]
  exact if_neg h

/-- Fetching the next byte only reads. -/
def Quiet (src : Nat → Mach → Nat × Mach) : Prop :=
  ∀ o m, ∃ b, (src o m).2 = { m with strayed := b }

theorem imgByte_quiet (img off : Nat) : Quiet (imgByte img off) := fun _ _ => ⟨_, rfl⟩

theorem zeroByte_quiet : Quiet zeroByte := fun _ m => ⟨m.strayed, rfl⟩

/-- **The loops over the bytes** go through when the pages are there, and leave the tables and the
allocator alone. -/
theorem putBytes_load (hw₁ : Wf m₁) {vaddr : Nat} {src : Nat → Mach → Nat × Mach} (hq : Quiet src)
    {ms : List Mapping} {l : List Nat} : ∀ {n o : Nat} {m : Mach}, Load I m₁ ms l [] m →
    vaddr + o + n ≤ 2 ^ 48 → (∀ k, o ≤ k → k < o + n → (vaddr + k) / 4096 ∈ pages ms) →
    (∀ k, o ≤ k → k < o + n → ∀ m, Load I m₁ ms l [] m → Load I m₁ ms l [] (src k m).2) →
    (putBytes vaddr src n o m).1 = true ∧ Load I m₁ ms l [] (putBytes vaddr src n o m).2 ∧
      (∀ p, (putBytes vaddr src n o m).2.node p = m.node p) ∧
      (putBytes vaddr src n o m).2.pmm = m.pmm
  | 0, _, _, h, _, _, _ => ⟨rfl, h, fun _ => rfl, rfl⟩
  | n + 1, o, m, h, hn, hpages, hsrc => by
    obtain ⟨f, hf, hf0, hphys⟩ := h.phys (show vaddr + o < 2 ^ 48 by omega)
      (hpages o (Nat.le_refl _) (by omega))
    have hne : vmmPhys (vaddr + o) m ≠ 0 := by
      rw [hphys]
      omega
    have hread := hsrc o (Nat.le_refl _) (by omega) m h
    have ho : (vaddr + o) % 4096 < 4096 := Nat.mod_lt _ (by omega)
    obtain ⟨hok, hload, hnode, hpmm⟩ := putBytes_load (n := n) (o := o + 1) hw₁ hq
      (hread.byte hw₁ (b := (src o m).1) hf ho) (by omega)
      (fun k h1 h2 => hpages k (by omega) (by omega)) fun k h1 h2 => hsrc k (by omega) (by omega)
    rw [putBytes_step (by omega) hne, hphys]
    have hsame := hread.byte_same hw₁ (b := (src o m).1) hf ho
    obtain ⟨b, hb⟩ := hq o m
    refine ⟨hok, hload, fun p => (hnode p).trans ((hsame.node p).trans (by rw [hb]; rfl)), ?_⟩
    rw [hpmm]
    show (src o m).2.pmm = m.pmm
    rw [hb]

theorem putBytes_starved {vaddr : Nat} {src : Nat → Mach → Nat × Mach} (hq : Quiet src) :
    ∀ (n o : Nat) (m : Mach), (putBytes vaddr src n o m).2.starved = m.starved
  | 0, _, _ => rfl
  | n + 1, o, m => by
    rw [putBytes]
    dsimp only
    split
    · rfl
    · rw [putBytes_starved hq n]
      obtain ⟨b, hb⟩ := hq o m
      show (src o m).2.starved = m.starved
      rw [hb]

/-! ## A segment -/

/-- No sum of the header wraps where it matters for the pages. -/
def Phdr.Sane (p : Phdr) : Prop := p.vaddr + p.memsz < 2 ^ 64

/-- The pages a header asks for. -/
def Phdr.wanted (p : Phdr) : List (Nat × Nat) := Mem.wanted p.writeFlag (p.vaddr / 4096) p.pageCount

/-- The bytes of the file that the segment takes are in the frames `I`. -/
def Phdr.In (I : Nat → Prop) (img : Nat) (p : Phdr) : Prop :=
  ∀ o < p.filesz, I ((img + p.off + o) % 2 ^ 64 / 4096)

section Segment

variable {p : Phdr} {img len : Nat}

/-- A header that passes the checks keeps to the user range. -/
theorem bounds_of_not_refused (hs : p.Sane) (hr : ¬ p.refused len) :
    userMin ≤ p.vaddr ∧ p.vaddr + p.memsz ≤ userMax ∧ p.filesz ≤ p.memsz ∧
      p.fin = p.vaddr + p.memsz := by
  have hfin : p.fin = p.vaddr + p.memsz := Nat.mod_eq_of_lt hs
  unfold Phdr.refused at hr
  rw [hfin] at hr
  omega

/-- The loop over the pages covers every byte of the segment. -/
theorem covered (hs : p.Sane) (hr : ¬ p.refused len) {o : Nat} (ho : o < p.memsz) :
    p.vaddr / 4096 ≤ (p.vaddr + o) / 4096 ∧
      (p.vaddr + o) / 4096 < p.vaddr / 4096 + p.pageCount := by
  obtain ⟨-, -, -, hfin⟩ := bounds_of_not_refused hs hr
  unfold Phdr.pageCount Phdr.first
  rw [hfin]
  omega

theorem pageCount_le (hs : p.Sane) (hr : ¬ p.refused len) :
    p.vaddr / 4096 + p.pageCount ≤ 262144 := by
  obtain ⟨-, hmax, -, hfin⟩ := bounds_of_not_refused hs hr
  unfold Phdr.pageCount Phdr.first userMax at *
  rw [hfin]
  omega

theorem fillBytes_starved (img : Nat) (p : Phdr) (m : Mach) :
    (fillBytes img p m).2.starved = m.starved := by
  have hput := @putBytes_starved p.vaddr _ (imgByte_quiet img p.off) p.filesz 0 m
  unfold fillBytes
  dsimp only
  split
  · exact hput
  · exact (putBytes_starved zeroByte_quiet _ _ _).trans hput

theorem fillSegment_eq (img : Nat) (p : Phdr) (m : Mach) : fillSegment img p m =
    if (mapPages p.writeFlag p.pageCount p.first m).1 = false then
      (false, (mapPages p.writeFlag p.pageCount p.first m).2)
    else fillBytes img p (mapPages p.writeFlag p.pageCount p.first m).2 :=
  rfl

theorem fillSegment_keeps_starved (img : Nat) (p : Phdr) (m : Mach) :
    (fillSegment img p m).2.starved = (mapPages p.writeFlag p.pageCount p.first m).2.starved := by
  rw [fillSegment_eq]
  split
  · rfl
  · exact fillBytes_starved img p _

theorem fillSegment_starved (img : Nat) (p : Phdr) {m : Mach} (h : m.starved = true) :
    (fillSegment img p m).2.starved = true :=
  (fillSegment_keeps_starved img p m).trans (mapPages_starved _ _ _ h)

/-- **The bytes of a segment** whose pages are mapped. -/
theorem fillBytes_load (hw₁ : Wf m₁) {ms : List Mapping} {l : List Nat} {m : Mach}
    (h : Load I m₁ ms l [] m) (hs : p.Sane) (hr : ¬ p.refused len) (hI : p.In I img)
    (hpages : ∀ k < p.memsz, (p.vaddr + k) / 4096 ∈ pages ms) :
    (fillBytes img p m).1 = true ∧ Load I m₁ ms l [] (fillBytes img p m).2 ∧
      (∀ q, (fillBytes img p m).2.node q = m.node q) ∧ (fillBytes img p m).2.pmm = m.pmm := by
  obtain ⟨hmin, hmax, hfile, -⟩ := bounds_of_not_refused hs hr
  unfold userMax at hmax
  obtain ⟨hok1, hload1, hnode1, hpmm1⟩ :=
    @putBytes_load _ _ hw₁ p.vaddr _ (imgByte_quiet img p.off) _ _
    p.filesz 0 _ h (by omega) (fun k _ hk => hpages k (by omega)) fun k _ hk m hm =>
      hm.look (hI k (by omega))
  obtain ⟨hok2, hload2, hnode2, hpmm2⟩ := @putBytes_load _ _ hw₁ p.vaddr _ zeroByte_quiet _ _
    (p.memsz - p.filesz) p.filesz _ hload1 (by omega) (fun k _ hk => hpages k (by omega))
    fun _ _ _ _ hm => hm
  have hrun : fillBytes img p m = putBytes p.vaddr zeroByte (p.memsz - p.filesz) p.filesz
      (putBytes p.vaddr (imgByte img p.off) p.filesz 0 m).2 := by
    unfold fillBytes
    dsimp only
    rw [hok1]
    exact if_neg (by simp)
  rw [hrun]
  exact ⟨hok2, hload2, fun q => (hnode2 q).trans (hnode1 q), hpmm2.trans hpmm1⟩

/-- Every page of the segment is among those it asked for. -/
theorem pages_of_made {new ms : List Mapping} (hs : p.Sane) (hr : ¬ p.refused len)
    (hmade : made new = p.wanted) : ∀ k < p.memsz, (p.vaddr + k) / 4096 ∈ pages (new ++ ms) := by
  intro k hk
  obtain ⟨h1, h2⟩ := covered hs hr hk
  have hin : (p.vaddr + k) / 4096 ∈ (made new).map Prod.fst := by
    rw [hmade, Phdr.wanted, Mem.wanted, List.map_map]
    exact List.mem_map.mpr ⟨_, List.mem_range'_1.mpr ⟨h1, h2⟩, rfl⟩
  rw [made_pages, List.mem_reverse] at hin
  rw [pages, List.map_append]
  exact List.mem_append_left _ hin

/-- The pages of a segment, with the outcome of the loop. -/
theorem mapSegment_load (hlow : Low m₁) {ms : List Mapping} {l : List Nat} {m : Mach}
    (h : Load I m₁ ms l [] m) (hs : p.Sane) (hr : ¬ p.refused len)
    (hst : (mapPages p.writeFlag p.pageCount p.first m).2.starved = false) :
    Outcome I m₁ ms l p.wanted (mapPages p.writeFlag p.pageCount p.first m) := by
  have hcount := pageCount_le hs hr
  exact mapPages_load hlow p.writeFlag h (show p.vaddr / 4096 + p.pageCount ≤ 2 ^ 27 by omega) hst

/-- **One segment** that passed its checks. -/
theorem fillSegment_load (hw₁ : Wf m₁) (hlow : Low m₁) {ms : List Mapping} {l : List Nat} {m : Mach}
    (h : Load I m₁ ms l [] m) (hs : p.Sane) (hr : ¬ p.refused len) (hI : p.In I img)
    (hst : (fillSegment img p m).2.starved = false) :
    Outcome I m₁ ms l p.wanted (fillSegment img p m) := by
  rw [fillSegment_keeps_starved] at hst
  obtain ⟨new, l', m', hload, hstop, hpre, hok⟩ := mapSegment_load hlow h hs hr hst
  rw [fillSegment_eq]
  by_cases hr1 : (mapPages p.writeFlag p.pageCount p.first m).1 = false
  · rw [if_pos hr1]
    exact ⟨new, l', m', hload, hstop, hpre, fun hok' => absurd hok' (by simp)⟩
  · obtain ⟨hm', hmade⟩ := hok (by simpa using hr1)
    rw [← hm'] at hload
    obtain ⟨-, hload', -⟩ := fillBytes_load hw₁ hload hs hr hI (pages_of_made hs hr hmade)
    rw [if_neg hr1]
    exact ⟨new, l', _, hload', Stop.refl _, hpre, fun _ => ⟨rfl, hmade⟩⟩

end Segment

/-! ## The program headers -/

/-- The pages that the headers from `i` on ask for, up to one that is refused, and whether none
is. -/
def planFrom (len : Nat) (hdr : Nat → Phdr) : Nat → Nat → List (Nat × Nat) × Bool
  | 0, _ => ([], true)
  | n + 1, i =>
    if (hdr i).skipped then planFrom len hdr n (i + 1)
    else if (hdr i).refused len then ([], false)
    else ((hdr i).wanted ++ (planFrom len hdr n (i + 1)).1, (planFrom len hdr n (i + 1)).2)

/-- The address of header `i`. -/
def hdrAddr (img : Nat) (e : Ehdr) (i : Nat) : Nat := (img + e.phoff + i * e.phentsize) % 2 ^ 64

/-- Header `i` reads the same all through the load and lies in the frames `I`. -/
structure Readable (I : Nat → Prop) (m₁ : Mach) (a : Nat) : Prop where
  same : ∀ ms l m, Load I m₁ ms l [] m → phdrAt m a = phdrAt m₁ a
  fits : a + phdrSize ≤ 2 ^ 64
  mem : ∀ k < phdrSize, I ((a + k) / 4096)

/-- What the load of header `p` needs: its address range does not wrap, its bytes lie in `I`. -/
def Phdr.Good (I : Nat → Prop) (img len : Nat) (p : Phdr) : Prop :=
  ¬ p.skipped → ¬ p.refused len → p.Sane ∧ p.In I img

section Headers

variable {img len : Nat} {e : Ehdr}

theorem touchBytes_starved : ∀ (n p : Nat) (m : Mach), (touchBytes n p m).starved = m.starved
  | 0, _, _ => rfl
  | n + 1, p, m => touchBytes_starved n _ (touch p m)

theorem loadSegment_starved (p : Phdr) {m : Mach} (h : m.starved = true) :
    (loadSegment img len p m).2.starved = true := by
  unfold loadSegment
  split
  · exact h
  · split
    · exact h
    · exact fillSegment_starved img p h

theorem phdrLoop_starved : ∀ (n i : Nat) {m : Mach}, m.starved = true →
    (phdrLoop img len e n i m).2.starved = true
  | 0, _, _, h => h
  | n + 1, i, m, h => by
    have hseg := @loadSegment_starved img len (phdrAt m (hdrAddr img e i))
      (touchBytes phdrSize (hdrAddr img e i) m) ((touchBytes_starved _ _ _).trans h)
    rw [phdrLoop]
    dsimp only
    split
    · exact hseg
    · exact phdrLoop_starved n (i + 1) hseg

theorem phdrLoop_succ (n i : Nat) {m : Mach} {r : Bool × Mach}
    (hr : loadSegment img len (phdrAt m (hdrAddr img e i))
      (touchBytes phdrSize (hdrAddr img e i) m) = r) :
    phdrLoop img len e (n + 1) i m =
      if r.1 = false then (false, r.2) else phdrLoop img len e n (i + 1) r.2 := by
  subst hr
  rfl

/-- A table allocation that failed in a segment is seen behind the loop. -/
theorem starved_of_loop {n i : Nat} {r : Bool × Mach}
    (h : (if r.1 = false then (false, r.2) else phdrLoop img len e n i r.2).2.starved = false) :
    r.2.starved = false := by
  by_contra hne
  have hstarved : r.2.starved = true := by simpa using hne
  split at h
  · exact hne h
  · rw [phdrLoop_starved n i hstarved] at h
    exact absurd h (by simp)

/-- **The loop over the headers** maps the pages of the plan, in order. -/
theorem phdrLoop_load (hw₁ : Wf m₁) (hlow : Low m₁) (n : Nat) : ∀ {i : Nat} {ms : List Mapping}
    {l : List Nat} {m : Mach}, Load I m₁ ms l [] m →
    (∀ j, i ≤ j → j < i + n → Readable I m₁ (hdrAddr img e j)) →
    (∀ j, i ≤ j → j < i + n → (phdrAt m₁ (hdrAddr img e j)).Good I img len) →
    (phdrLoop img len e n i m).2.starved = false →
    Outcome I m₁ ms l (planFrom len (fun j => phdrAt m₁ (hdrAddr img e j)) n i).1
      (phdrLoop img len e n i m) ∧
    ((phdrLoop img len e n i m).1 = true →
      (planFrom len (fun j => phdrAt m₁ (hdrAddr img e j)) n i).2 = true) := by
  induction n with
  | zero => exact fun h _ _ _ => ⟨Outcome.done h, fun _ => rfl⟩
  | succ n ih =>
    intro i ms l m h hread hgood hst
    have hhdr := hread i (Nat.le_refl _) (by omega)
    have hlook := h.lookBytes hhdr.fits hhdr.mem
    have hread' := fun j (h1 : i + 1 ≤ j) (h2 : j < i + 1 + n) => hread j (by omega) (by omega)
    have hgood' := fun j (h1 : i + 1 ≤ j) (h2 : j < i + 1 + n) => hgood j (by omega) (by omega)
    obtain ⟨r, hr⟩ : ∃ r, loadSegment img len (phdrAt m₁ (hdrAddr img e i))
      (touchBytes phdrSize (hdrAddr img e i) m) = r := ⟨_, rfl⟩
    rw [phdrLoop_succ n i (r := r) (by rw [hhdr.same ms l m h]; exact hr)] at hst ⊢
    rw [planFrom]
    by_cases hskip : (phdrAt m₁ (hdrAddr img e i)).skipped
    · rw [loadSegment, if_pos hskip] at hr
      rw [if_pos hskip]
      subst hr
      exact ih hlook hread' hgood' hst
    · rw [loadSegment, if_neg hskip] at hr
      rw [if_neg hskip]
      by_cases href : (phdrAt m₁ (hdrAddr img e i)).refused len
      · rw [if_pos href] at hr
        rw [if_pos href]
        have hfail : r.1 = false := by rw [← hr]
        have hstate : r.2 = touchBytes phdrSize (hdrAddr img e i) m := by rw [← hr]
        rw [if_pos hfail, hstate]
        exact ⟨Outcome.refused hlook _, fun hok => absurd hok (by simp)⟩
      · rw [if_neg href] at hr
        rw [if_neg href]
        obtain ⟨hsane, hin⟩ := hgood i (Nat.le_refl _) (by omega) hskip href
        have hstr : r.2.starved = false := starved_of_loop hst
        have hseg := fillSegment_load hw₁ hlow hlook hsane href hin (by rw [hr]; exact hstr)
        rw [hr] at hseg
        by_cases hok : r.1 = false
        · rw [if_pos hok]
          exact ⟨hseg.stop _, fun hok' => absurd hok' (by simp)⟩
        · rw [if_neg hok] at hst ⊢
          obtain ⟨new, l', m', hload, -, -, hdone⟩ := hseg
          obtain ⟨hm', hmade⟩ := hdone (by simpa using hok)
          rw [← hm'] at hload
          obtain ⟨hout, hplan⟩ := ih hload hread' hgood' hst
          rw [← hmade]
          exact ⟨hout.after, hplan⟩

end Headers

end Loops

end InaneOS.Mem
