import InaneOS.Mem.Protect

/-!
# What `elf_load` touches

`elfLoadAt` is `elfLoad` with the accesses it makes: the bytes of the image it reads,
the pages it maps and the virtual addresses it writes through, in order. `Within` asks
of such a list that every read is in the image, every page in the user range, and every
write goes to a page that was mapped before it in the list.

The pages are in range whatever the header says: the loop over them compares with the
same sum as the check (`mapPagesAt_within`). The bytes are in the image and on these
pages as long as no sum wraps (`fillBytesAt_within`). Where `off + filesz` wraps, bytes
are read from somewhere else; where `vaddr + memsz` wraps, hardly a page is mapped and
the bytes go through whatever the tables held before. So they do when `vmm_map` finds no
frame for a page table, which it does not report. Where the end of the header table
wraps, already the first header is read from outside the image (`table_needed`).

Nothing is asked of the state: the tables may be any words. `elfLoad_within` has the
conditions on each header in the state in which the loop comes to it, `contained_of_serves`
says when a load in well-formed tables meets them.
-/

namespace InaneOS.Mem

/-! ## Accesses -/

/-- One access of the loader. -/
inductive Access where
  /-- A byte is read through a pointer into the image. -/
  | read (a : Nat)
  /-- `vmm_map(va, f, ..)`, and whether `va` leads to `f` behind it. -/
  | map (va : Nat) (took : Bool)
  /-- A byte is written to `vmm_phys(va)`. -/
  | write (va : Nat)

/-- The page that the access maps. -/
def Access.pages : Access → List Nat
  | .map va true => [va / 4096]
  | _ => []

/-- The access is allowed when the pages `ps` have been mapped. -/
def Access.Allowed (img len : Nat) (ps : List Nat) : Access → Prop
  | .read a => img ≤ a ∧ a < img + len
  | .map va _ => userMin ≤ va ∧ va < userMax
  | .write va => userMin ≤ va ∧ va < userMax ∧ va / 4096 ∈ ps

/-- Every access is allowed after those before it, `ps` being mapped at the start. -/
inductive Within (img len : Nat) : List Nat → List Access → Prop where
  | nil {ps : List Nat} : Within img len ps []
  | cons {ps : List Nat} {a : Access} {t : List Access} : a.Allowed img len ps →
      Within img len (a.pages ++ ps) t → Within img len ps (a :: t)

/-- What is mapped after the accesses. -/
def after (ps : List Nat) : List Access → List Nat
  | [] => ps
  | a :: t => after (a.pages ++ ps) t

section Lists

variable {img len : Nat}

theorem Within.append {s t : List Access} {ps : List Nat} (hs : Within img len ps s)
    (ht : Within img len (after ps s) t) : Within img len ps (s ++ t) := by
  induction hs with
  | nil => exact ht
  | cons ha _ ih => exact .cons ha (ih ht)

theorem Within.read {a : Nat} {s : List Access} {ps : List Nat} (h : Within img len ps s)
    (hin : .read a ∈ s) :
    img ≤ a ∧ a < img + len := by
  induction h with
  | nil => exact absurd hin (by simp)
  | cons ha _ ih =>
    rcases List.mem_cons.mp hin with rfl | hin
    · exact ha
    · exact ih hin

/-- What is mapped stays so. -/
theorem mem_after {x : Nat} : ∀ {s : List Access} {ps : List Nat}, x ∈ ps → x ∈ after ps s
  | [], _, h => h
  | a :: s, ps, h => by
    rw [after]
    exact mem_after (List.mem_append_right _ h)

theorem after_append : ∀ (s t : List Access) (ps : List Nat), after ps (s ++ t) =
    after (after ps s) t
  | [], _, _ => rfl
  | a :: s, t, ps => after_append s t (a.pages ++ ps)

/-- Reads alone. -/
theorem within_reads {ps : List Nat} {as : List Nat} (h : ∀ a ∈ as, img ≤ a ∧ a < img + len) :
    Within img len ps (as.map Access.read) := by
  induction as with
  | nil => exact .nil
  | cons a as ih => exact .cons (h a (by simp)) (ih fun b hb => h b (List.mem_cons_of_mem _ hb))

end Lists

/-! ## `elf_load` with its accesses -/

/-- The `n` bytes of a structure at `a`. -/
def structAt (n a : Nat) : List Nat := (List.range n).map fun k => (a + k) % 2 ^ 64

/-- `mapPages`, with its accesses. -/
def mapPagesAt (w : Nat) : Nat → Nat → Mach → List Access × Bool × Mach
  | 0, _, m => ([], true, m)
  | n + 1, va, m =>
    let (f, pmm) := pmmAllocFrame m.pmm
    let m := { m with pmm := pmm }
    if f = 0 then ([], false, m)
    else
      let m := vmmMap va f (5 + w) m
      let r := mapPagesAt w n (va + 4096) m
      (.map va (decide (vmmPhys va m = f)) :: r.1, r.2)

/-- `putBytes`, with its accesses; `reads o` are read for byte `o`. -/
def putBytesAt (vaddr : Nat) (src : Nat → Mach → Nat × Mach) (reads : Nat → List Nat) :
    Nat → Nat → Mach → List Access × Bool × Mach
  | 0, _, m => ([], true, m)
  | n + 1, o, m =>
    let phys := vmmPhys ((vaddr + o) % 2 ^ 64) m
    if phys = 0 then ([], false, m)
    else
      let (b, m) := src o m
      let r := putBytesAt vaddr src reads n (o + 1) (storeByte phys b m)
      ((reads o).map .read ++ .write ((vaddr + o) % 2 ^ 64) :: r.1, r.2)

def fillBytesAt (img : Nat) (p : Phdr) (m : Mach) : List Access × Bool × Mach :=
  let r := putBytesAt p.vaddr (imgByte img p.off) (fun o => [(img + p.off + o) % 2 ^ 64])
    p.filesz 0 m
  if r.2.1 = false then (r.1, false, r.2.2)
  else
    let s := putBytesAt p.vaddr zeroByte (fun _ => []) (p.memsz - p.filesz) p.filesz r.2.2
    (r.1 ++ s.1, s.2)

def fillSegmentAt (img : Nat) (p : Phdr) (m : Mach) : List Access × Bool × Mach :=
  let r := mapPagesAt p.writeFlag p.pageCount p.first m
  if r.2.1 = false then (r.1, false, r.2.2)
  else
    let s := fillBytesAt img p r.2.2
    (r.1 ++ s.1, s.2)

def loadSegmentAt (img len : Nat) (p : Phdr) (m : Mach) : List Access × Bool × Mach :=
  if p.skipped then ([], true, m)
  else if p.refused len then ([], false, m)
  else fillSegmentAt img p m

/-- `phdrLoop`, with its accesses; a header counts as read in all its bytes. -/
def phdrLoopAt (img len : Nat) (e : Ehdr) : Nat → Nat → Mach → List Access × Bool × Mach
  | 0, _, m => ([], true, m)
  | n + 1, i, m =>
    let a := (img + e.phoff + i * e.phentsize) % 2 ^ 64
    let r := loadSegmentAt img len (phdrAt m a) (touchBytes phdrSize a m)
    if r.2.1 = false then ((structAt phdrSize a).map .read ++ r.1, false, r.2.2)
    else
      let s := phdrLoopAt img len e n (i + 1) r.2.2
      ((structAt phdrSize a).map .read ++ r.1 ++ s.1, s.2)

/-- `elf_load` with its accesses. -/
def elfLoadAt (img len : Nat) (m : Mach) : List Access × Option Nat × Mach :=
  if len < ehdrSize then ([], none, m)
  else
    let e := ehdrAt m img
    let m := touchBytes ehdrSize img m
    let head := (structAt ehdrSize img).map Access.read
    if ¬ e.accepted len then (head, none, m)
    else
      let r := phdrLoopAt img len e e.phnum 0 m
      if r.2.1 = false then (head ++ r.1, none, r.2.2)
      else if e.entry < userMin ∨ e.entry ≥ userMax then (head ++ r.1, none, r.2.2)
      else (head ++ r.1, some e.entry, r.2.2)

/-! ## The same computation -/

theorem mapPagesAt_snd (w : Nat) :
    ∀ (n va : Nat) (m : Mach), (mapPagesAt w n va m).2 = mapPages w n va m
  | 0, _, _ => rfl
  | n + 1, va, m => by
    rw [mapPagesAt, mapPages]
    dsimp only
    split
    · rfl
    · exact mapPagesAt_snd w n _ _

theorem putBytesAt_snd (vaddr : Nat) (src : Nat → Mach → Nat × Mach) (reads : Nat → List Nat) :
    ∀ (n o : Nat) (m : Mach), (putBytesAt vaddr src reads n o m).2 = putBytes vaddr src n o m
  | 0, _, _ => rfl
  | n + 1, o, m => by
    rw [putBytesAt, putBytes]
    dsimp only
    split
    · rfl
    · exact putBytesAt_snd vaddr src reads n _ _

theorem fillBytesAt_snd (img : Nat) (p : Phdr) (m : Mach) :
    (fillBytesAt img p m).2 = fillBytes img p m := by
  unfold fillBytesAt fillBytes
  dsimp only
  rw [putBytesAt_snd]
  split
  · rfl
  · rw [putBytesAt_snd]

theorem fillSegmentAt_snd (img : Nat) (p : Phdr) (m : Mach) :
    (fillSegmentAt img p m).2 = fillSegment img p m := by
  unfold fillSegmentAt fillSegment
  dsimp only
  rw [mapPagesAt_snd]
  split
  · rfl
  · rw [fillBytesAt_snd]

theorem loadSegmentAt_snd (img len : Nat) (p : Phdr) (m : Mach) :
    (loadSegmentAt img len p m).2 = loadSegment img len p m := by
  unfold loadSegmentAt loadSegment
  split
  · rfl
  · split
    · rfl
    · exact fillSegmentAt_snd img p m

theorem phdrLoopAt_snd (img len : Nat) (e : Ehdr) : ∀ (n i : Nat) (m : Mach),
    (phdrLoopAt img len e n i m).2 = phdrLoop img len e n i m
  | 0, _, _ => rfl
  | n + 1, i, m => by
    rw [phdrLoopAt, phdrLoop]
    dsimp only
    rw [loadSegmentAt_snd]
    split
    · rfl
    · exact phdrLoopAt_snd img len e n _ _

/-- `elfLoadAt` loads as `elfLoad` does. -/
theorem elfLoadAt_snd (img len : Nat) (m : Mach) : (elfLoadAt img len m).2 = elfLoad img len m := by
  unfold elfLoadAt elfLoad
  split
  · rfl
  · dsimp only
    split
    · rfl
    · rw [phdrLoopAt_snd]
      split
      · rfl
      · split
        · rfl
        · rfl

/-! ## The conditions -/

/-- Every `vmm_map` of the loop over the pages takes effect. -/
def Maps (w : Nat) : Nat → Nat → Mach → Prop
  | 0, _, _ => True
  | n + 1, va, m =>
    let (f, pmm) := pmmAllocFrame m.pmm
    let m := { m with pmm := pmm }
    f = 0 ∨ (vmmPhys va (vmmMap va f (5 + w) m) = f ∧ Maps w n (va + 4096) (vmmMap va f (5 + w) m))

/-- No sum of the header wraps. -/
def Phdr.Sums (p : Phdr) : Prop := p.off + p.filesz < 2 ^ 64 ∧ p.vaddr + p.memsz < 2 ^ 64

/-- The segment gets its pages, and its first byte has a place. -/
def Phdr.Begun (p : Phdr) (m : Mach) : Prop :=
  (mapPages p.writeFlag p.pageCount p.first m).1 = true ∧
    vmmPhys p.vaddr (mapPages p.writeFlag p.pageCount p.first m).2 ≠ 0

/-- A header that is met in state `m` and whose bytes are filled in wraps nowhere, and its pages
are mapped. -/
def Phdr.Contained (len : Nat) (p : Phdr) (m : Mach) : Prop :=
  ¬ p.skipped → ¬ p.refused len → p.Begun m → p.Sums ∧ Maps p.writeFlag p.pageCount p.first m

/-- `P` holds of each header that the loop comes to, in the state in which it does. -/
def EachHeader (P : Phdr → Mach → Prop) (img len : Nat) (e : Ehdr) : Nat → Nat → Mach → Prop
  | 0, _, _ => True
  | n + 1, i, m =>
    let a := hdrAddr img e i
    let r := loadSegment img len (phdrAt m a) (touchBytes phdrSize a m)
    P (phdrAt m a) (touchBytes phdrSize a m) ∧ (r.1 = true → EachHeader P img len e n (i + 1) r.2)

/-- The header table is empty or its end does not wrap. -/
def TableEnds (m : Mach) (img len : Nat) : Prop :=
  ehdrSize ≤ len → (ehdrAt m img).accepted len → (ehdrAt m img).phnum = 0 ∨
    (ehdrAt m img).phoff + (ehdrAt m img).phnum * (ehdrAt m img).phentsize < 2 ^ 64

/-- The headers are contained. -/
def SegmentsContained (m : Mach) (img len : Nat) : Prop :=
  ehdrSize ≤ len → (ehdrAt m img).accepted len →
    EachHeader (Phdr.Contained len) img len (ehdrAt m img) (ehdrAt m img).phnum 0
      (touchBytes ehdrSize img m)

/-! ## The pages of a segment -/

section Segment

variable {img len : Nat}

/-- The pages of the loop are in range, and behind it they are mapped. -/
theorem mapPagesAt_within (w : Nat) : ∀ {n va : Nat} {m : Mach} {ps : List Nat},
    (∀ k < n, userMin ≤ va + 4096 * k ∧ va + 4096 * k < userMax) →
    Within img len ps (mapPagesAt w n va m).1 ∧
      (Maps w n va m → (mapPages w n va m).1 = true →
        ∀ k < n, va / 4096 + k ∈ after ps (mapPagesAt w n va m).1)
  | 0, _, _, _, _ => ⟨.nil, fun _ _ k hk => absurd hk (Nat.not_lt_zero k)⟩
  | n + 1, va, m, ps, h => by
    have hrest : ∀ k < n, userMin ≤ va + 4096 + 4096 * k ∧ va + 4096 + 4096 * k < userMax := by
      intro k hk
      have hk' := h (k + 1) (by omega)
      omega
    rw [mapPagesAt, mapPages, Maps]
    dsimp only
    split
    · exact ⟨.nil, fun _ hok => absurd hok (by simp)⟩
    · next hf =>
      have hnow : userMin ≤ va ∧ va < userMax := h 0 (by omega)
      obtain ⟨hin, hmapped⟩ := @mapPagesAt_within w n (va + 4096)
        (vmmMap va (pmmAllocFrame m.pmm).1 (5 + w) { m with pmm := (pmmAllocFrame m.pmm).2 })
        ((Access.map va (decide (vmmPhys va (vmmMap va (pmmAllocFrame m.pmm).1 (5 + w)
          { m with pmm := (pmmAllocFrame m.pmm).2 }) = (pmmAllocFrame m.pmm).1))).pages ++ ps) hrest
      refine ⟨.cons hnow hin, fun hmaps hok k hk => ?_⟩
      obtain ⟨htook, hmaps⟩ := hmaps.resolve_left hf
      rw [decide_eq_true htook] at hmapped ⊢
      cases k with
      | zero =>
        rw [after]
        exact mem_after (List.mem_append_left _ (List.mem_singleton.mpr rfl))
      | succ k =>
        have hlater := hmapped hmaps hok k (by omega)
        rw [show va / 4096 + (k + 1) = (va + 4096) / 4096 + k by omega]
        exact hlater

/-- The bytes are read and written where they may be. -/
theorem putBytesAt_within {vaddr : Nat} {src : Nat → Mach → Nat × Mach} {reads : Nat → List Nat}
    {ps : List Nat} :
    ∀ {n o : Nat} {m : Mach},
    (∀ k, o ≤ k → k < o + n → ∀ a ∈ reads k, img ≤ a ∧ a < img + len) →
    (∀ k, o ≤ k → k < o + n → (Access.write ((vaddr + k) % 2 ^ 64)).Allowed img len ps) →
    Within img len ps (putBytesAt vaddr src reads n o m).1 ∧
      after ps (putBytesAt vaddr src reads n o m).1 = ps
  | 0, _, _, _, _ => ⟨.nil, rfl⟩
  | n + 1, o, m, hread, hwrite => by
    have hafter : ∀ as : List Nat, after ps (as.map Access.read) = ps := by
      intro as
      induction as with
      | nil => rfl
      | cons a as ih => exact ih
    rw [putBytesAt]
    dsimp only
    split
    · exact ⟨.nil, rfl⟩
    · next hphys =>
      obtain ⟨hin, hsame⟩ := @putBytesAt_within vaddr src reads ps n (o + 1)
        (storeByte (vmmPhys ((vaddr + o) % 2 ^ 64) m) (src o m).1 (src o m).2)
        (fun k h1 h2 => hread k (by omega) (by omega)) fun k h1 h2 => hwrite k (by omega) (by omega)
      have hnow : Within img len ps ((reads o).map Access.read) :=
        within_reads (hread o (Nat.le_refl _) (by omega))
      refine ⟨hnow.append ?_, ?_⟩
      · rw [hafter]
        exact .cons (hwrite o (Nat.le_refl _) (by omega)) hin
      · rw [after_append, hafter]
        exact hsame

/-- The loop stops at a first byte that has no place. -/
theorem putBytesAt_none {vaddr : Nat} {src : Nat → Mach → Nat × Mach} {reads : Nat → List Nat}
    {n o : Nat}
    {m : Mach} (h : vmmPhys ((vaddr + o) % 2 ^ 64) m = 0) :
    (putBytesAt vaddr src reads n o m).1 = [] := by
  cases n with
  | zero => rfl
  | succ n =>
    rw [putBytesAt]
    dsimp only
    rw [if_pos h]

variable {p : Phdr}

/-- The loop over the pages keeps to the user range, whatever wraps. -/
theorem page_in_range (hr : ¬ p.refused len) {k : Nat} (hk : k < p.pageCount) :
    userMin ≤ p.first + 4096 * k ∧ p.first + 4096 * k < userMax := by
  unfold Phdr.refused at hr
  unfold Phdr.pageCount Phdr.first at *
  unfold userMin userMax at *
  omega

/-- **The bytes of a segment** whose sums do not wrap and whose pages are mapped. -/
theorem fillBytesAt_within (hfit : img + len ≤ 2 ^ 52) (hr : ¬ p.refused len)
    (hsums : p.Sums) {ps : List Nat}
    (hps : ∀ k < p.pageCount, p.first / 4096 + k ∈ ps) (m : Mach) :
    Within img len ps (fillBytesAt img p m).1 := by
  obtain ⟨hmin, hmax, hfile, hfin⟩ := bounds_of_not_refused hsums.2 hr
  have hoff : p.off + p.filesz ≤ len := by
    rw [Phdr.refused, Nat.mod_eq_of_lt hsums.1] at hr
    omega
  have hwrite : ∀ k < p.memsz, (Access.write ((p.vaddr + k) % 2 ^ 64)).Allowed img len ps := by
    intro k hk
    have hcover := covered hsums.2 hr hk
    have hpage := hps ((p.vaddr + k) / 4096 - p.vaddr / 4096) (by omega)
    rw [Phdr.first, Nat.mul_div_cancel _ (by decide),
      show p.vaddr / 4096 + ((p.vaddr + k) / 4096 - p.vaddr / 4096) =
        (p.vaddr + k) / 4096 by omega] at hpage
    unfold userMin userMax at *
    rw [Nat.mod_eq_of_lt (by omega)]
    exact ⟨by unfold userMin; omega, by unfold userMax; omega, hpage⟩
  have hread : ∀ k, 0 ≤ k → k < 0 + p.filesz → ∀ a ∈ [(img + p.off + k) % 2 ^ 64], img ≤ a ∧
    a < img + len := by
    intro k _ hk a ha
    rw [List.mem_singleton.mp ha, Nat.mod_eq_of_lt (by omega)]
    omega
  unfold fillBytesAt
  dsimp only
  obtain ⟨hin, hsame⟩ :=
    @putBytesAt_within img len p.vaddr (imgByte img p.off) _ ps p.filesz 0 m hread
    fun k _ hk => hwrite k (by omega)
  split
  · exact hin
  · refine hin.append ?_
    rw [hsame]
    exact (putBytesAt_within (fun _ _ _ a ha => absurd ha (by simp)) fun k _ hk => hwrite
      k (by omega)).1

/-- Nothing is filled in when the first byte has no place. -/
theorem fillBytesAt_none {m : Mach} (hv : p.vaddr < 2 ^ 64) (h : vmmPhys p.vaddr m = 0) :
    (fillBytesAt img p m).1 = [] := by
  have hzero : vmmPhys ((p.vaddr + 0) % 2 ^ 64) m = 0 := by
    rw [Nat.add_zero, Nat.mod_eq_of_lt hv]
    exact h
  unfold fillBytesAt
  dsimp only
  rw [putBytesAt_none hzero, putBytesAt_snd]
  cases hf : p.filesz with
  | zero =>
    rw [putBytes, if_neg (by simp)]
    exact putBytesAt_none hzero
  | succ n =>
    rw [putBytes]
    dsimp only
    rw [if_pos hzero, if_pos rfl]

/-- **One segment.** -/
theorem loadSegmentAt_within (hfit : img + len ≤ 2 ^ 52) (hv : p.vaddr < 2 ^ 64) {m : Mach}
    (h : p.Contained len m) (ps : List Nat) : Within img len ps (loadSegmentAt img len p m).1 := by
  unfold loadSegmentAt
  split
  · exact .nil
  · next hs =>
    split
    · exact .nil
    · next hr =>
      obtain ⟨hin, hmapped⟩ := @mapPagesAt_within img len p.writeFlag p.pageCount p.first m ps
        fun k hk => page_in_range hr hk
      unfold fillSegmentAt
      dsimp only
      rw [mapPagesAt_snd]
      split
      · exact hin
      · next hok =>
        have htrue : (mapPages p.writeFlag p.pageCount p.first m).1 = true := by simpa using hok
        refine hin.append ?_
        by_cases hphys : vmmPhys p.vaddr (mapPages p.writeFlag p.pageCount p.first m).2 = 0
        · rw [fillBytesAt_none hv hphys]
          exact .nil
        · obtain ⟨hsums, hmaps⟩ := h hs hr ⟨htrue, hphys⟩
          exact fillBytesAt_within hfit hr hsums (hmapped hmaps htrue) _

end Segment

/-! ## The headers -/

section Headers

variable {img len : Nat} {m : Mach}

theorem byteAt_lt (m : Mach) (p : Nat) : byteAt m p < 256 := Nat.mod_lt _ (by decide)

theorem readLe_lt (m : Mach) : ∀ n p : Nat, readLe m n p < 256 ^ n
  | 0, _ => Nat.one_pos
  | n + 1, p => by
    have hlow := byteAt_lt m p
    have hhigh := readLe_lt m n ((p + 1) % 2 ^ 64)
    rw [readLe, Nat.pow_succ]
    generalize readLe m n ((p + 1) % 2 ^ 64) = high at hhigh ⊢
    omega

theorem phdrAt_vaddr_lt (m : Mach) (a : Nat) : (phdrAt m a).vaddr < 2 ^ 64 := readLe_lt m 8 _

/-- The end of the header table wraps only for a table that begins near the end of the address
space. -/
theorem table_begin {m : Mach} (hwrap : 2 ^ 64 ≤
    (ehdrAt m img).phoff + (ehdrAt m img).phnum * (ehdrAt m img).phentsize) :
    2 ^ 64 ≤ (ehdrAt m img).phoff + 2 ^ 32 := by
  have hnum : (ehdrAt m img).phnum < 2 ^ 16 := readLe_lt m 2 _
  have hsize : (ehdrAt m img).phentsize < 2 ^ 16 := readLe_lt m 2 _
  have hmul : (ehdrAt m img).phnum * (ehdrAt m img).phentsize ≤ 2 ^ 16 * 2 ^ 16 :=
    Nat.mul_le_mul (by omega) (by omega)
  omega

/-- A structure inside the image. -/
theorem structAt_within {n a : Nat} (hfit : img + len ≤ 2 ^ 52) (hlo : img ≤ a)
    (hhi : a + n ≤ img + len)
    (ps : List Nat) : Within img len ps ((structAt n a).map .read) := by
  refine within_reads fun b hb => ?_
  obtain ⟨k, hk, rfl⟩ := List.mem_map.mp hb
  have hkn := List.mem_range.mp hk
  rw [Nat.mod_eq_of_lt (by omega)]
  omega

/-- **The loop over the headers**, by induction on the rounds that are left. -/
theorem phdrLoopAt_within (hfit : img + len ≤ 2 ^ 52) {e : Ehdr} (hacc : e.accepted len)
    (hend : e.phoff + e.phnum * e.phentsize < 2 ^ 64) : ∀ {n i : Nat} {m : Mach}, i + n ≤ e.phnum →
    EachHeader (Phdr.Contained len) img len e n i m → ∀ ps : List Nat,
    Within img len ps (phdrLoopAt img len e n i m).1
  | 0, _, _, _, _, _ => .nil
  | n + 1, i, m, hn, h, ps => by
    have htable := e.table_inside hacc hend (show i < e.phnum by omega)
    unfold phdrSize at htable
    have haddr : hdrAddr img e i = img + e.phoff + i * e.phentsize := Nat.mod_eq_of_lt (by omega)
    have hhead := structAt_within (n := phdrSize) (a := hdrAddr img e i) hfit (by omega)
      (by unfold phdrSize; omega) ps
    obtain ⟨hnow, hlater⟩ := h
    have hseg := loadSegmentAt_within hfit (phdrAt_vaddr_lt m _) hnow
    rw [phdrLoopAt]
    dsimp only
    split
    · exact hhead.append (hseg _)
    · next hok =>
      rw [loadSegmentAt_snd] at hok ⊢
      exact (hhead.append (hseg _)).append
        (phdrLoopAt_within hfit hacc hend (by omega) (hlater ((Bool.not_eq_false _).mp hok)) _)

theorem elfLoadAt_accesses (hlen : ¬ len < ehdrSize) (hacc : (ehdrAt m img).accepted len) :
    (elfLoadAt img len m).1 = (structAt ehdrSize img).map .read ++
      (phdrLoopAt img len (ehdrAt m img) (ehdrAt m img).phnum 0 (touchBytes ehdrSize img m)).1 := by
  unfold elfLoadAt
  rw [if_neg hlen]
  dsimp only
  rw [if_neg (not_not.mpr hacc)]
  split
  · rfl
  · split
    · rfl
    · rfl

/-- A table whose end wraps has its first header outside the image. -/
theorem table_needed (hfit : img + len ≤ 2 ^ 52) (h : Within img len [] (elfLoadAt img len m).1) :
    TableEnds m img len := by
  intro hlen hacc
  by_contra hwrap
  obtain ⟨hnum, hsum⟩ := not_or.mp hwrap
  have hbegin := @table_begin img m (by omega)
  have hoff : (ehdrAt m img).phoff < 2 ^ 64 := readLe_lt m 8 _
  obtain ⟨n, hn⟩ := Nat.exists_eq_succ_of_ne_zero hnum
  have hfirst : Access.read ((hdrAddr img (ehdrAt m img) 0 + 0) % 2 ^ 64) ∈
    (elfLoadAt img len m).1 := by
    have hstruct : Access.read ((hdrAddr img (ehdrAt m img) 0 + 0) % 2 ^ 64) ∈
        (structAt phdrSize (hdrAddr img (ehdrAt m img) 0)).map Access.read :=
      List.mem_map_of_mem (List.mem_map.mpr ⟨0, List.mem_range.mpr (by decide), rfl⟩)
    rw [elfLoadAt_accesses (by omega) hacc, hn, phdrLoopAt]
    refine List.mem_append_right _ ?_
    dsimp only
    split
    · exact List.mem_append_left _ hstruct
    · exact List.mem_append_left _ (List.mem_append_left _ hstruct)
  have hin := h.read hfirst
  rw [hdrAddr, Nat.zero_mul] at hin
  omega

end Headers

/-! ## Loads in well-formed tables -/

section Load

variable {I : Nat → Prop} {m₁ : Mach} {img len : Nat}

theorem maps_cons {w n va f : Nat} {rest : List Nat} {m : Mach} (hs : supply m.pmm = f :: rest)
    (hf : f ≠ 0) :
    Maps w (n + 1) va m ↔
      vmmPhys va (vmmMap va (f * 4096) (5 + w) { m with pmm := m.pmm.take f }) = f * 4096 ∧
        Maps w n (va + 4096) (vmmMap va (f * 4096) (5 + w) { m with pmm := m.pmm.take f }) := by
  rw [Maps, pmmAllocFrame_cons hs]
  exact or_iff_right (Nat.mul_ne_zero hf (by decide))

/-- A page that was mapped leads to its frame. -/
theorem Load.phys_page {ms : List Mapping} {l sp : List Nat} {m : Mach} {v f flags : Nat}
    (h : Load I m₁ (⟨v, f, flags⟩ :: ms) l sp m) (hv : v < 2 ^ 36) :
    vmmPhys (v * 4096) m = f * 4096 := by
  have hphys := vmmPhys_eq m v (show 0 < 4096 by decide)
  have hpte : Mem.pte m v = leafEntry (f * 4096) flags := by
    rw [h.pte v hv, entryOf_cons, if_pos rfl]
    rfl
  rw [hpte, if_pos (leafEntry_present _ _), leafEntry_frame, Nat.mul_div_cancel _ (by omega),
    Nat.add_zero,
    Nat.add_zero] at hphys
  exact hphys

/-- Every `vmm_map` takes effect unless a table allocation fails. -/
theorem maps_load (hlow : Low m₁) (w : Nat) : ∀ {n v : Nat} {ms : List Mapping} {l : List Nat}
    {m : Mach}, Load I m₁ ms l [] m → v + n ≤ 2 ^ 27 →
      (mapPages w n (v * 4096) m).2.starved = false →
    Maps w n (v * 4096) m
  | 0, _, _, _, _, _, _, _ => trivial
  | n + 1, v, ms, l, m, h, hn, hst => by
    cases hs : supply m.pmm with
    | nil =>
      rw [Maps, pmmAllocFrame_nil hs]
      exact Or.inl rfl
    | cons f rest =>
      by_cases hf : f = 0
      · rw [Maps, pmmAllocFrame_cons hs, hf]
        exact Or.inl rfl
      · rw [mapPages_cons hs hf, show v * 4096 + 4096 = (v + 1) * 4096 by omega] at hst
        rw [maps_cons hs hf, show v * 4096 + 4096 = (v + 1) * 4096 by omega]
        rcases (h.take hs hf).map (show v < 2 ^ 27 by omega) (h.low hlow).present with
          ⟨hstarved, -⟩ | ⟨l', hload, -⟩
        · rw [mapPages_starved w n _ hstarved] at hst
          exact absurd hst (by simp)
        · exact ⟨hload.phys_page (by omega), maps_load hlow w hload (by omega) hst⟩

/-- **The loop over the headers** in tables that are in order: the headers are contained when their
sums do not wrap and no table allocation fails. -/
theorem eachHeader_load (hw₁ : Wf m₁) (hlow : Low m₁) {e : Ehdr} (n : Nat) :
    ∀ {i : Nat} {ms : List Mapping}
    {l : List Nat} {m : Mach}, Load I m₁ ms l [] m →
    (∀ j, i ≤ j → j < i + n → Readable I m₁ (hdrAddr img e j)) →
    (∀ j, i ≤ j → j < i + n → (phdrAt m₁ (hdrAddr img e j)).Good I img len) →
    (∀ j, i ≤ j → j < i + n → ¬ (phdrAt m₁ (hdrAddr img e j)).skipped →
      ¬ (phdrAt m₁ (hdrAddr img e j)).refused len → (phdrAt m₁ (hdrAddr img e j)).Sums) →
    (phdrLoop img len e n i m).2.starved = false →
    EachHeader (Phdr.Contained len) img len e n i m := by
  induction n with
  | zero => exact fun _ _ _ _ _ => trivial
  | succ n ih =>
    intro i ms l m h hread hgood hsums hst
    have hhdr := hread i (Nat.le_refl _) (by omega)
    have hlook := h.lookBytes hhdr.fits hhdr.mem
    have hsame := hhdr.same ms l m h
    obtain ⟨r, hr⟩ : ∃ r, loadSegment img len (phdrAt m₁ (hdrAddr img e i))
      (touchBytes phdrSize (hdrAddr img e i) m) = r := ⟨_, rfl⟩
    rw [phdrLoop_succ n i (r := r) (by rw [hsame]; exact hr)] at hst
    rw [EachHeader, hsame, hr]
    by_cases hskip : (phdrAt m₁ (hdrAddr img e i)).skipped
    · rw [loadSegment, if_pos hskip] at hr
      subst hr
      exact ⟨fun hs => absurd hskip hs,
        fun _ => ih hlook (fun j h1 h2 => hread j (by omega) (by omega))
        (fun j h1 h2 => hgood j (by omega) (by omega))
          (fun j h1 h2 => hsums j (by omega) (by omega)) hst⟩
    · rw [loadSegment, if_neg hskip] at hr
      by_cases href : (phdrAt m₁ (hdrAddr img e i)).refused len
      · rw [if_pos href] at hr
        subst hr
        exact ⟨fun _ hr => absurd href hr, fun hok => absurd hok (by simp)⟩
      · rw [if_neg href] at hr
        obtain ⟨hsane, hin⟩ := hgood i (Nat.le_refl _) (by omega) hskip href
        have hstr : (fillSegment img (phdrAt m₁ (hdrAddr img e i))
          (touchBytes phdrSize (hdrAddr img e i) m)).2.starved =
            false := by
          rw [hr]
          exact starved_of_loop hst
        have hseg := fillSegment_load hw₁ hlow hlook hsane href hin hstr
        rw [fillSegment_keeps_starved] at hstr
        have hcount := pageCount_le hsane href
        refine ⟨fun _ _ _ => ⟨hsums i (Nat.le_refl _) (by omega) hskip href, ?_⟩, fun hok => ?_⟩
        · exact maps_load hlow _ hlook (show _ / 4096 + _ ≤ 2 ^ 27 by omega) hstr
        · rw [hr] at hseg
          obtain ⟨new, l', m', hload, -, -, hdone⟩ := hseg
          rw [← (hdone hok).1] at hload
          rw [if_neg (by rw [hok]; simp)] at hst
          exact ih hload (fun j h1 h2 => hread j (by omega) (by omega))
            (fun j h1 h2 => hgood j (by omega) (by omega))
              (fun j h1 h2 => hsums j (by omega) (by omega)) hst

theorem elfLoad_state (hlen : ¬ len < ehdrSize) (hacc : (ehdrAt m₁ img).accepted len) :
    (elfLoad img len m₁).2 =
    (phdrLoop img len (ehdrAt m₁ img) (ehdrAt m₁ img).phnum 0 (touchBytes ehdrSize img m₁)).2 := by
  unfold elfLoad
  rw [if_neg hlen]
  dsimp only
  rw [if_neg (not_not.mpr hacc)]
  split
  · rfl
  · split
    · rfl
    · rfl

/-- **An image is contained** when no sum of its headers wraps, the tables are in order and memory
does not run out between a page and its page table. -/
theorem contained_of_serves (hw₁ : Wf m₁) (hlow : Low m₁) (hdense : AllDense m₁)
    (hnull : 0 ∉ supply m₁.pmm)
    (hst : m₁.starved = false) (him : ImageOk I m₁ img len) (hwrap : NoWrap m₁ img len)
    (hsums : ehdrSize ≤ len → (ehdrAt m₁ img).accepted len → ∀ j < (ehdrAt m₁ img).phnum,
      ¬ (hdr m₁ img j).skipped → ¬ (hdr m₁ img j).refused len → (hdr m₁ img j).Sums)
    (hserve : Serves (fun _ => True) (fun _ _ => True) (blocks m₁) (supply m₁.pmm)
      ((elfPlan m₁ img len).1.map Prod.fst)) :
    TableEnds m₁ img len ∧ SegmentsContained m₁ img len := by
  refine ⟨fun hlen hacc => Or.inr (hwrap.headers hlen hacc), fun hlen hacc => ?_⟩
  have hserved := elfLoad_serves (K := fun _ _ => True) hw₁ hlow hdense hnull hst him
    (hserve.imp fun _ _ _ _ => trivial)
  have hstarved : (elfLoad img len m₁).2.starved = false := hserved.starved.trans hst
  rw [elfLoad_state (by omega) hacc] at hstarved
  obtain ⟨hfit, hI⟩ := him.head hlen
  exact eachHeader_load hw₁ hlow _ ((Load.refl hw₁).lookBytes hfit hI)
    (fun j _ hj => him.read hlen hacc j (by omega)) (fun j _ hj => him.good hlen hacc j (by omega))
    (fun j _ hj => hsums hlen hacc j (by omega)) hstarved

end Load

end InaneOS.Mem
