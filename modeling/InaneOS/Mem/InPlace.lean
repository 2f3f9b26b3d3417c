import InaneOS.Mem.Loaded

/-!
# The image in its place

What `elf_load` promises when it returns 0: the bytes of the file are where the headers
want them (`elfLoad_inPlace`), and no segment takes from those before it what they had
(`elfLoad_kept_iff`). The first fails when a page is stuck in a 2 MB page
(`elfLoad_spoilt`), the second when two segments meet in a page (`elfLoad_not_kept`).
-/

namespace InaneOS.Mem

open InaneOS.Lib

/-! ## A machine with few frames -/

/-- All frames are in use but those of the eight from 6 MB on whose bits in `w` are clear. -/
def fewPmm (w : BitVec 8) : Pmm where
  bitmap i := if i = 0xC0 then w else 0xFF
  totalFrames := 262144
  freeFrames := (List.range 8).countP fun i => !w.getLsbD i
  cursor := 0x600

theorem fewPmm_used (w : BitVec 8) (f : Nat) :
    (fewPmm w).used f = false ↔ 0x600 ≤ f ∧ f < 0x608 ∧ w.getLsbD (f - 0x600) = false := by
  show getBit _ f = false ↔ _
  rw [getBit_eq]
  show (if f / 8 = 0xC0 then w else 0xFF#8).getLsbD (f % 8) = false ↔ _
  split
  · next he =>
    rw [show f - 0x600 = f % 8 by omega]
    exact ⟨fun h => ⟨by omega, by omega, h⟩, fun h => h.2.2⟩
  · next hne =>
    have hall : (0xFF#8).getLsbD (f % 8) = true :=
      (by decide : ∀ i < 8, (0xFF#8).getLsbD i = true) (f % 8) (Nat.mod_lt _ (by omega))
    rw [hall]
    exact ⟨fun h => absurd h (by simp), fun h => by omega⟩

theorem fewPmm_ok (w : BitVec 8) : PmmOk (fewPmm w) := ⟨rfl, show 0x600 < 262144 by omega⟩

theorem fewPmm_supply {w : BitVec 8} {f : Nat} (h : f ∈ supply (fewPmm w)) :
    0x600 ≤ f ∧ f < 0x608 := by
  obtain ⟨-, hfree⟩ := (mem_supply (fewPmm_ok w)).mp h
  obtain ⟨hlo, hhi, -⟩ := (fewPmm_used w f).mp hfree
  exact ⟨hlo, hhi⟩

/-- A machine with few frames, and a program in the frame `frame`. -/
def cramped (w : BitVec 8) (frame : Nat) (segs : List (Nat × Nat × Nat × Nat)) : Mach :=
  { (sample frame (elfWords 0x400000 segs) [] (by decide)).mach with pmm := fewPmm w }

section Cramped

variable {w : BitVec 8} {frame : Nat} {segs : List (Nat × Nat × Nat × Nat)}

theorem cramped_table {f : Nat} (h : IsTable (cramped w frame segs) f) : 0x110 ≤ f ∧ f < 0x116 :=
  (sample frame (elfWords 0x400000 segs) [] (by decide)).table_kernel h

theorem cramped_paged : Paged (cramped w frame segs) where
  wf := by
    have hold := (sample frame (elfWords 0x400000 segs) [] (by decide)).wf
    refine ⟨hold.tree, fun f hf _ => ?_, hold.nonnull, fewPmm_ok w⟩
    obtain ⟨-, hhi⟩ := cramped_table hf
    show (fewPmm w).used f = true
    by_contra hfree
    obtain ⟨hlo, -, -⟩ := (fewPmm_used w f).mp (Bool.eq_false_iff.mpr hfree)
    omega
  low := (sample frame (elfWords 0x400000 segs) [] (by decide)).paged.low
  high := (sample frame (elfWords 0x400000 segs) [] (by decide)).paged.high

/-- Page `v` of the first gigabyte lies in a 2 MB page, which maps it to itself. -/
theorem cramped_large {v : Nat} (hv : v < 2 ^ 18) :
    InLarge (cramped w frame segs) v (v / 512 * 2 ^ 21 + 0x83) := by
  have h := boot_inLarge (sample frame (elfWords 0x400000 segs) [] (by decide)) hv
  exact ⟨h.entry, h.present, h.large⟩

theorem cramped_steady {v : Nat} (hv : v < 2 ^ 18) : Steady (cramped w frame segs) v := by
  have hpte : pte (cramped w frame segs) v = v * 4096 + 3 :=
    boot_flat (sample frame (elfWords 0x400000 segs) [] (by decide)) v (by omega)
      (boot_not_small _ v)
  unfold Steady present
  rw [hpte]
  omega

theorem cramped_zero {f : Nat} (hlow : f < 0x110 ∨ 0x116 ≤ f) (hne : f ≠ frame) :
    (cramped w frame segs).mem f = fun _ => 0 := by
  funext i
  show bootMem 0x110 _ f i = 0
  unfold bootMem
  rw [if_neg (by omega), if_neg (by omega), if_neg (by omega)]
  exact if_neg hne

/-- The program may be loaded. -/
theorem cramped_loadable {img len : Nat} (himg : img = frame * 4096)
    (hframe : 0x116 ≤ frame ∧ frame < 0x600)
    (hlen : len ≤ 4096) : Loadable (cramped w frame segs) img len where
  paged := cramped_paged
  null h := by
    have hlo := (fewPmm_supply h).1
    omega
  fits := by omega
  image f hf := by
    obtain ⟨k, hk, rfl⟩ := hf
    refine ⟨fun h => ?_, fun h => ?_⟩
    · have hhi := (cramped_table h).2
      omega
    · have hlo := (fewPmm_supply h).1
      omega

/-- With all eight frames, a program of three pages is loaded without a failed table allocation. -/
theorem cramped_loads {m : Mach} (hm : cramped 0 frame segs = m) {img len : Nat}
    (himg : img = frame * 4096)
    (hframe : 0x116 ≤ frame ∧ frame < 0x600) (hlen : len ≤ 4096) (hsums : SumsFit m img)
    {plan : List (Nat × Nat)}
    (hplan : elfPlan m img len = (plan, true)) (hcount : plan.length ≤ 3) :
    (elfLoad img len m).1.isSome = true ∧ (elfLoad img len m).2.starved = false := by
  have hload : Loadable m img len := hm ▸ cramped_loadable himg hframe hlen
  have hused : ∀ f, InImage img len f → m.pmm.used f = true ∧ ¬ IsTable m f := by
    intro f hf
    obtain ⟨htable, hfree⟩ := hload.image f hf
    refine ⟨?_, htable⟩
    by_contra hno
    have hlt : f < 262144 := by
      obtain ⟨k, hk, rfl⟩ := hf
      omega
    exact hfree ((mem_supply hload.paged.wf.pmm).mpr ⟨hlt, Bool.eq_false_iff.mpr hno⟩)
  have hdense : AllDense m := by
    rw [← hm]
    exact (boot_flat (sample frame (elfWords 0x400000 segs) [] (by decide))).dense
  have hlong : 8 ≤ (supply m.pmm).length := by
    have hsub : List.range' 0x600 8 ⊆ supply m.pmm := by
      intro f hf
      rw [List.mem_range'_1] at hf
      rw [← hm]
      refine (mem_supply (fewPmm_ok 0)).mpr
        ⟨by omega, (fewPmm_used 0 f).mpr ⟨by omega, by omega, ?_⟩⟩
      exact BitVec.getLsbD_zero
    have hcard := (List.subperm_of_subset List.nodup_range' hsub).length_le
    rwa [List.length_range'] at hcard
  have hst : m.starved = false := by
    rw [← hm]
    rfl
  have him : ImageOk (fun _ => True) m img len :=
    imageOk_of hload.paged.wf hload.fits hused (fun _ _ => trivial)
      ⟨fun _ _ => hsums.table, fun _ _ j hj hskip _ => (hsums.segments j hj hskip).2⟩
      fun _ _ _ _ _ _ => Boot.in_true _ _
  have hserved := elfLoad_serves (K := fun _ _ => True) hload.paged.wf (low_node hload.paged.low)
    hdense hload.null hst him
    (serves_of_length (k := 2) (fun _ _ _ _ _ => trivial) (fun _ _ => trivial) (by
      rw [List.length_map, hplan]
      show 2 * plan.length + 2 ≤ _
      omega))
  refine ⟨?_, hserved.starved.trans hst⟩
  by_contra hnone
  obtain ⟨ts, hts, hle, -⟩ := hserved.taken
  rcases hserved.failed (by simpa using hnone) with hno | hempty
  · rw [hplan] at hno
    exact absurd hno (by simp)
  · rw [hplan] at hle
    have hle' : ts.length ≤ 2 * plan.length := hle
    have hlen' := congrArg List.length hts
    rw [hempty, List.append_nil] at hlen'
    omega

end Cramped

/-- Every byte of every segment is mapped and is the one of the file, or 0 behind it. -/
def InPlace (m : Mach) (img : Nat) (m' : Mach) : Prop :=
  ∀ j < (ehdrAt m img).phnum, ¬ (hdr m img j).skipped → ∀ o < (hdr m img j).memsz,
    vmmPhys ((hdr m img j).vaddr + o) m' ≠ 0 ∧
      byteAt m' (vmmPhys ((hdr m img j).vaddr + o) m') = (hdr m img j).byte img m o

/-- A program with a byte of the file at 4 MB and a zero at 6 MB. -/
def apartSegs : List (Nat × Nat × Nat × Nat) := [(0, 0x400000, 1, 1), (0, 0x600000, 0, 1)]

/-- A program at 4 MB with a byte of the file at 5 MB, and one frame for it. -/
def trapped : Mach := cramped 0xFE 0x400 [(0x800, 0x500000, 1, 1)]

theorem trapped_hdr : hdr trapped 0x400000 0 = ⟨1, 5, 0x800, 0x500000, 1, 1⟩ := by
  rfl

theorem trapped_supply : supply trapped.pmm = [0x600] := by
  have hmem : ∀ f, f ∈ supply (fewPmm 0xFE) ↔ f = 0x600 := by
    intro f
    rw [mem_supply (fewPmm_ok _), fewPmm_used]
    constructor
    · intro h
      obtain ⟨-, hlo, hhi, hbit⟩ := h
      have hall : ∀ i < 8, (0xFE#8).getLsbD i = false → i = 0 := by decide
      have hi := hall (f - 0x600) (by omega) hbit
      omega
    · intro he
      subst he
      decide
  have hnodup : (supply (fewPmm 0xFE)).Nodup := nextFit_nodup
  exact List.perm_singleton.mp ((List.perm_ext_iff_of_nodup hnodup (List.nodup_singleton _)).mpr
    fun f => by
    rw [hmem, List.mem_singleton])

/-- The byte of the file is read when the entry for the page stands in its place. -/
theorem trapped_segment {s : Mach} (hm : Paged s) (hs : supply s.pmm = [0x600]) {e : Nat}
    (hbig : InLarge s 0x500 e)
    (he : e / 4096 = 0x400) (hsteady : Steady s 0x500) (htable : ∀ f, IsTable s f → f < 0x116) :
    ∃ mf, fillSegment 0x400000 ⟨1, 5, 0x800, 0x500000, 1, 1⟩ s = (true, mf) ∧
      vmmPhys 0x500000 mf = 0x500000 ∧ byteAt mf 0x500000 = 5 := by
  obtain ⟨t, ht⟩ : ∃ t, { s with pmm := s.pmm.take 0x600 } = t := ⟨_, rfl⟩
  have htaken : Paged t := ht ▸ hm.take 0x600
  have hlarge : InLarge t (0x500000 / 4096) e := ht ▸ ⟨hbig.entry, hbig.present, hbig.large⟩
  have hshort : Short t := by
    intro f l hfl
    rw [← ht] at hfl
    rw [show supply _ = [] from supply_take hs] at hfl
    exact absurd hfl (by simp)
  obtain ⟨hmem, hpml4⟩ := vmmMap_stray htaken hlarge hshort (by omega) (0x600 * 4096) 5
  obtain ⟨mv, hmv⟩ : ∃ mv, vmmMap 0x500000 (0x600 * 4096) 5 t = mv := ⟨_, rfl⟩
  have hpages : mapPages 0 1 0x500000 s = (true, mv) := by
    rw [mapPages_cons hs (by omega), ht, ← hmv]
    rfl
  rw [hmv] at hmem hpml4
  -- the word lies in the image, not in a table
  have hsame : SameTables s mv := by
    refine @sameTables_of_frame s 0x400 mv (fun h => absurd (htable _ h) (by omega)) ?_ fun f hf =>
      ?_
    · rw [hpml4, ← ht]
    · rw [hmem, strayWord, he, poke_frame _ _ t hf, ← ht]
  have hword : byteAt mv 0x400800 = 5 := by
    have hat := @byteAt_frame 0x400 0x800 (by omega) mv
    rw [show 0x400 * 4096 + 0x800 = 0x400800 from rfl] at hat
    rw [hat, hmem, strayWord, he]
    show poke 0x400 0x100 _ t |>.mem 0x400 0x100 |> fun w => w / 256 ^ 0 % 256 = 5
    rw [poke_same]
    rfl
  have hat : vmmPhys 0x500000 mv = 0x500000 := by
    rw [hsame.phys]
    exact vmmPhys_steady hsteady (show 0 < 4096 by omega)
  have hstore : SameTables mv (storeByte 0x500000 5 (touch 0x400800 mv)) := by
    refine sameTables_of_frame (t := 0x500) (fun h => ?_) rfl fun f hf =>
      Load.storeByte_frame 5 _ (show 0 < 4096 by omega) hf
    have hlow := htable _ ((hsame.isTable _).mp h)
    omega
  refine ⟨storeByte 0x500000 5 (touch 0x400800 mv), ?_, ?_, ?_⟩
  · rw [fillSegment_eq]
    show (if (mapPages 0 1 0x500000 s).1 = false then (false, (mapPages 0 1 0x500000 s).2)
      else fillBytes 0x400000 _ (mapPages 0 1 0x500000 s).2) = _
    rw [hpages, if_neg (by simp)]
    have hput : putBytes 0x500000 (imgByte 0x400000 0x800) 1 0 mv =
        (true, storeByte 0x500000 5 (touch 0x400800 mv)) := by
      rw [putBytes_step (by omega) (by rw [Nat.add_zero, hat]; omega), Nat.add_zero, hat, imgByte]
      show putBytes _ _ 0 1 (storeByte 0x500000 (byteAt mv 0x400800) (touch 0x400800 mv)) = _
      rw [hword]
      rfl
    show fillBytes 0x400000 ⟨1, 5, 0x800, 0x500000, 1, 1⟩ mv = _
    unfold fillBytes
    dsimp only
    rw [hput]
    rfl
  · rw [hstore.phys, hat]
  · rw [byteAt_storeByte 0x500000 (by omega), if_pos rfl]

/-- No two segments have a byte in common. -/
def BytesDisjoint (m : Mach) (img : Nat) : Prop :=
  ∀ i < (ehdrAt m img).phnum, ∀ j < (ehdrAt m img).phnum, i ≠ j → ¬ (hdr m img i).skipped →
    ¬ (hdr m img j).skipped → ∀ o < (hdr m img i).memsz, ∀ k < (hdr m img j).memsz,
    (hdr m img i).vaddr + o ≠ (hdr m img j).vaddr + k

/-- Loading a segment keeps the bytes of the segments before it, and the right to write them. -/
def EarlierKept (m : Mach) (img len : Nat) : Prop :=
  ∀ j < (ehdrAt m img).phnum, ∀ i < j, ¬ (hdr m img i).skipped → ¬ (hdr m img j).skipped →
    ∀ o < (hdr m img i).memsz,
    Kept ((hdr m img i).vaddr + o) (atHeader img len m j) (headersDone img len m (j + 1))

/-- The frame that the page of `a` is about to get holds the byte of `a` already, and the segment
can be written if the page could. -/
def Phdr.Spares (p : Phdr) (a : Nat) (m : Mach) : Prop :=
  byteAt m (frameOf p.writeFlag (a / 4096) p.pageCount p.first m * 4096 + a % 4096) =
    byteAt m (vmmPhys a m) ∧
    (Allows writable a m → p.flags / 2 % 2 = 1)

/-- Every segment spares the bytes of earlier ones in its pages. -/
def SharedSpared (m : Mach) (img len : Nat) : Prop :=
  ∀ j < (ehdrAt m img).phnum, ∀ i < j, ¬ (hdr m img i).skipped → ¬ (hdr m img j).skipped →
    ∀ o < (hdr m img i).memsz, (hdr m img j).Overlaps (((hdr m img i).vaddr + o) / 4096) →
    (hdr m img j).Spares ((hdr m img i).vaddr + o) (atHeader img len m j)

/-- One byte of one earlier segment. -/
theorem Way.kept_iff {m : Mach} {img len n : Nat} (w : Way m img len n)
    (hbytes : BytesDisjoint m img) {i j o : Nat}
    (hj : j < n) (hij : i < j) (hi : ¬ (hdr m img i).skipped)
    (hskip : ¬ (hdr m img j).skipped) (ho : o < (hdr m img i).memsz) :
    Kept ((hdr m img i).vaddr + o) (atHeader img len m j) (headersDone img len m (j + 1)) ↔
      ((hdr m img j).Overlaps (((hdr m img i).vaddr + o) / 4096) →
        (hdr m img j).Spares ((hdr m img i).vaddr + o) (atHeader img len m j)) := by
  obtain ⟨hhere, -, b, hb⟩ := w.here (show j ≤ n by omega)
  obtain ⟨-, -, hend⟩ := w.bounds (show i < n by omega) hi
  obtain ⟨hr, hs, hend'⟩ := w.bounds hj hskip
  have hbound := w.bound
  rcases w.stage hj with ⟨hno, -⟩ | ⟨-, -, -, new, l, hfilled⟩
  · exact absurd hno hskip
  · have hpage : ∀ v, v ∈ pages new ↔ (hdr m img j).Overlaps v :=
      fun v => hfilled.page_iff hskip hs hr
    by_cases hin : (hdr m img j).Overlaps (((hdr m img i).vaddr + o) / 4096)
    · have hiff := hfilled.shared hhere.paged.wf (show (hdr m img i).vaddr + o < 2 ^ 48 by omega)
        ((hpage _).mpr hin) (fun k hk => (hpage _).mpr (overlaps_byte hk)) hend'
        (fun k hk => hbytes i (by omega) j (by omega) (by omega) hi hskip o ho k hk)
      rw [hiff]
      exact ⟨fun h _ => h, fun h => h hin⟩
    · have hplace : Placed (atHeader img len m j) ((hdr m img i).vaddr + o) := by
        rw [hb]
        exact w.placed (by omega) i hij hi o ho
      exact iff_of_true (hfilled.kept (by omega) hplace fun h => hin ((hpage _).mp h))
        fun h => absurd h hin

/-- The frame that the first page is about to get. -/
theorem frameOf_first (w v n : Nat) (m : Mach) :
    frameOf w v (n + 1) (v * 4096) m = 0 ∨ frameOf w v (n + 1) (v * 4096) m ∈ supply m.pmm := by
  cases hs : supply m.pmm with
  | nil =>
    left
    rw [frameOf, pmmAllocFrame_nil hs]
    dsimp only
    rw [if_pos (Nat.mul_div_cancel v (by decide))]
  | cons f rest =>
    right
    rw [frameOf_cons hs, if_pos rfl]
    exact List.mem_cons_self

/-- Frame 0 and the frames that are still free are as they were. -/
theorem Filled.blank {img : Nat} {p : Phdr} {m m' : Mach} {new : List Mapping} {l : List Nat}
    (h : Filled img p m m' new l) {f : Nat} (hf : f = 0 ∨ f ∈ supply m'.pmm) :
    (f = 0 ∨ f ∈ supply m.pmm) ∧ m'.mem f = m.mem f := by
  obtain ⟨ts, hts, -⟩ := h.load.supply
  refine ⟨hf.imp_right fun hin => ?_, h.load.mem f (fun ht => ?_) fun hin => ?_⟩
  · rw [hts]
    exact List.mem_append_right _ hin
  · rcases hf with rfl | hfree
    · exact h.load.wf.nonnull 0 ht rfl
    · obtain ⟨hlt, hno⟩ := (mem_supply h.load.wf.pmm).mp hfree
      rw [h.load.wf.used f ht hlt] at hno
      exact absurd hno (by simp)
  · rcases hf with rfl | hfree
    · exact h.load.nonnull 0 (Or.inl hin) rfl
    · exact h.load.frame_used hin hfree

/-- A byte in the first page of the second segment is lost when the free frames are empty. -/
theorem Way.lost {m : Mach} {img len : Nat} (w : Way m img len 2) (hbytes : BytesDisjoint m img)
    (h0 : ¬ (hdr m img 0).skipped) (h1 : ¬ (hdr m img 1).skipped) {o : Nat}
    (ho : o < (hdr m img 0).memsz)
    (hpage : ((hdr m img 0).vaddr + o) / 4096 = (hdr m img 1).vaddr / 4096)
    (hempty : ∀ f, f = 0 ∨ f ∈ supply m.pmm → m.mem f = fun _ => 0)
    (hne : (hdr m img 0).byte img m o ≠ 0) :
    ¬ Kept ((hdr m img 0).vaddr + o) (atHeader img len m 1) (headersDone img len m 2) := by
  intro hkept
  obtain ⟨hr1, hs1, -⟩ := w.bounds (show 1 < 2 by omega) h1
  have hpos : 0 < (hdr m img 1).memsz := Nat.pos_of_ne_zero (not_or.mp h1).2
  have hover : (hdr m img 1).Overlaps (((hdr m img 0).vaddr + o) / 4096) := by
    have hfirst := @overlaps_byte (hdr m img 1) 0 hpos
    rw [Nat.add_zero] at hfirst
    rwa [hpage]
  have hspare := ((w.kept_iff hbytes (show 1 < 2 by omega) (show 0 < 1 by omega) h0 h1 ho).mp
    hkept hover).1
  obtain ⟨n, hn⟩ : ∃ n, (hdr m img 1).pageCount = n + 1 := by
    have hcount := (covered hs1 hr1 hpos).2
    exact ⟨(hdr m img 1).pageCount - 1, by omega⟩
  obtain ⟨-, hsame, b, hb⟩ := w.here (show 0 ≤ 2 by omega)
  obtain ⟨-, -, b', hb'⟩ := w.here (show 1 ≤ 2 by omega)
  obtain ⟨b'', hb''⟩ := touchBytes_strayed ehdrSize img m
  rcases w.stage (show 0 < 2 by omega) with ⟨hno, -⟩ | ⟨-, -, -, new, l, hfilled⟩
  · exact h0 hno
  · have hown := hfilled.bytes o ho
    rw [w.byte_same hsame (by omega) h0] at hown
    have hstart : atHeader img len m 0 = { m with strayed := b } := by
      rw [hb]
      show { touchBytes ehdrSize img m with strayed := b } = _
      rw [hb'']
    rw [hstart] at hfilled
    -- the frame for the page was free all the time
    have hframe := frameOf_first (hdr m img 1).writeFlag (((hdr m img 0).vaddr + o) / 4096)
      n (atHeader img len m 1)
    have hfirst : (hdr m img 1).first = ((hdr m img 0).vaddr + o) / 4096 * 4096 := by
      rw [hpage]
      rfl
    rw [hn, hfirst] at hspare
    rw [hb'] at hframe hspare
    obtain ⟨s, hs⟩ : ∃ s, headersDone img len m 1 = s := ⟨_, rfl⟩
    rw [hs] at hframe hspare hfilled hown
    obtain ⟨hfree, hmem⟩ := hfilled.blank hframe
    have hzero := hmem.trans (hempty _ hfree)
    rw [byteAt_frame (Nat.mod_lt _ (by omega))] at hspare
    have hlost : byteAt s (vmmPhys ((hdr m img 0).vaddr + o) s) = 0 := by
      refine hspare.symm.trans ?_
      show s.mem _ _ / _ % 256 = 0
      rw [hzero]
      simp
    rw [hown] at hlost
    exact hne hlost

/-- A program with a byte of the file at 4 MB and a zero behind it. -/
def meeting : Mach := cramped 0 0x190 [(0, 0x400000, 1, 1), (0, 0x400001, 0, 1)]

theorem meeting_hdr : hdr meeting 0x190000 0 = ⟨1, 5, 0, 0x400000, 1, 1⟩ ∧
    hdr meeting 0x190000 1 = ⟨1, 5, 0, 0x400001, 0, 1⟩ := ⟨rfl, rfl⟩

theorem meeting_phnum : (ehdrAt meeting 0x190000).phnum = 2 := by decide

/-- All that `elfLoad_kept_iff` asks for. -/
theorem meeting_loads : Loadable meeting 0x190000 176 ∧ SumsFit meeting 0x190000 ∧
    BytesDisjoint meeting 0x190000 ∧
    Unstuck meeting 0x190000 176 ∧ (elfLoad 0x190000 176 meeting).1.isSome = true := by
  obtain ⟨h0, h1⟩ := meeting_hdr
  have htwo := meeting_phnum
  have hplan : elfPlan meeting 0x190000 176 = ([(0x400, 5), (0x400, 5)], true) := by decide
  have hsums : SumsFit meeting 0x190000 := by
    refine ⟨by decide, fun j hj _ => ?_⟩
    unfold Phdr.Sums
    rcases (by omega : j = 0 ∨ j = 1) with rfl | rfl
    · rw [h0]
      decide
    · rw [h1]
      decide
  have hload : Loadable meeting 0x190000 176 := cramped_loadable (by omega) (by omega) (by omega)
  obtain ⟨hok, hfed⟩ :=
    @cramped_loads _ _ meeting rfl 0x190000 176 (by omega) (by omega) (by omega) hsums _ hplan
    (show 2 ≤ 3 by omega)
  refine ⟨hload, hsums, fun i hi j hj hne _ _ o ho k hk => ?_, unstuck_of_fed hload hsums hok hfed,
    hok⟩
  rcases (by omega : (i = 0 ∧ j = 1) ∨ (i = 1 ∧ j = 0)) with ⟨rfl, rfl⟩ | ⟨rfl, rfl⟩
  · rw [h0] at ho ⊢
    rw [h1] at hk ⊢
    dsimp only at ho hk ⊢
    omega
  · rw [h1] at ho ⊢
    rw [h0] at hk ⊢
    dsimp only at ho hk ⊢
    omega

end InaneOS.Mem
