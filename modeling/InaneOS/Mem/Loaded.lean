import InaneOS.Mem.Bounds
import InaneOS.Mem.Filled

/-!
# From header to header

`elf_load` from header to header. `headersDone j` is the state behind the first `j`
program headers, `atHeader j` the state in which header `j` has been read. `Way` collects
what a load rests on that returns 0; then every header that counts is one `Filled` step
(`Way.stage`), and the image reads the same all the way (`Way.state`).

A byte of an earlier segment lies in a frame that is in use (`Placed`). A later segment
leaves it alone when it has no byte in the same page (`Filled.kept`). Otherwise the page
gets a new frame and new rights, and what the earlier segment had there is gone
(`Filled.shared`).
-/

namespace InaneOS.Mem

open InaneOS.Lib

/-! ## What a load may count on -/

/-- A state in which `elf_load` may be called for the image at `img`: the page tables are in order,
and the frames of the image are no tables and not free. -/
structure Loadable (m : Mach) (img len : Nat) : Prop where
  paged : Paged m
  null : 0 ∉ supply m.pmm
  fits : img + len < 2 ^ 64
  image : ∀ f, InImage img len f → ¬ IsTable m f ∧ f ∉ supply m.pmm

/-- No sum of header fields wraps. -/
structure SumsFit (m : Mach) (img : Nat) : Prop where
  table : (ehdrAt m img).phoff + (ehdrAt m img).phnum * (ehdrAt m img).phentsize < 2 ^ 64
  segments : ∀ j < (ehdrAt m img).phnum, ¬ (hdr m img j).skipped → (hdr m img j).Sums

/-- No two segments have a page in common. -/
def PagesDisjoint (m : Mach) (img : Nat) : Prop :=
  ∀ i < (ehdrAt m img).phnum, ∀ j < (ehdrAt m img).phnum, i ≠ j → ¬ (hdr m img i).skipped →
    ¬ (hdr m img j).skipped → ∀ v, (hdr m img i).Overlaps v → ¬ (hdr m img j).Overlaps v

/-- The state behind the first `j` program headers. -/
def headersDone (img len : Nat) (m : Mach) (j : Nat) : Mach :=
  (phdrLoop img len (ehdrAt m img) j 0 (touchBytes ehdrSize img m)).2

/-- The state in which header `j` has been read. -/
def atHeader (img len : Nat) (m : Mach) (j : Nat) : Mach :=
  touchBytes phdrSize (hdrAddr img (ehdrAt m img) j) (headersDone img len m j)

/-- No page of the image is stuck in a 2 MB page when its segment is loaded. -/
def Unstuck (m : Mach) (img len : Nat) : Prop :=
  ∀ j < (ehdrAt m img).phnum, ¬ (hdr m img j).skipped →
    Splits (hdr m img j).writeFlag (hdr m img j).pageCount (hdr m img j).first
      (atHeader img len m j)

section Loop

variable {img len : Nat} {e : Ehdr}

theorem touchBytes_strayed :
    ∀ (n p : Nat) (m : Mach), ∃ b, touchBytes n p m = { m with strayed := b }
  | 0, _, m => ⟨m.strayed, rfl⟩
  | n + 1, p, m => by
    obtain ⟨b, hb⟩ := touchBytes_strayed n ((p + 1) % 2 ^ 64) (touch p m)
    exact ⟨b, hb⟩

/-- The last round of the loop. -/
theorem phdrLoop_last : ∀ (n i : Nat) (m : Mach), phdrLoop img len e (n + 1) i m =
    if (phdrLoop img len e n i m).1 = false then (false, (phdrLoop img len e n i m).2)
    else loadSegment img len (phdrAt (phdrLoop img len e n i m).2 (hdrAddr img e (i + n)))
      (touchBytes phdrSize (hdrAddr img e (i + n)) (phdrLoop img len e n i m).2)
  | 0, i, m => by
    obtain ⟨r, hr⟩ : ∃ r, loadSegment img len (phdrAt m (hdrAddr img e i))
      (touchBytes phdrSize (hdrAddr img e i) m) = r := ⟨_, rfl⟩
    rw [phdrLoop_succ 0 i hr, Nat.add_zero]
    show _ = loadSegment img len (phdrAt m (hdrAddr img e i))
      (touchBytes phdrSize (hdrAddr img e i) m)
    rw [hr]
    obtain ⟨ok, m'⟩ := r
    cases ok <;> rfl
  | n + 1, i, m => by
    obtain ⟨r, hr⟩ : ∃ r, loadSegment img len (phdrAt m (hdrAddr img e i))
      (touchBytes phdrSize (hdrAddr img e i) m) = r := ⟨_, rfl⟩
    rw [phdrLoop_succ (n + 1) i hr, phdrLoop_succ n i hr]
    by_cases hok : r.1 = false
    · rw [if_pos hok, if_pos hok]
      rfl
    · rw [if_neg hok, if_neg hok, phdrLoop_last n (i + 1) r.2, show i + 1 + n =
        i + (n + 1) by omega]

/-- A loop that returned normally did so in every round. -/
theorem phdrLoop_true {i : Nat} {m : Mach} {n : Nat} :
    ∀ {k : Nat}, (phdrLoop img len e (n + k) i m).1 = true →
    (phdrLoop img len e n i m).1 = true
  | 0, h => h
  | k + 1, h => by
    refine phdrLoop_true (k := k) ?_
    by_contra hno
    rw [← Nat.add_assoc, phdrLoop_last, if_pos (by simpa using hno)] at h
    exact absurd h (by simp)

/-- A table allocation that failed in some round is seen at the end. -/
theorem phdrLoop_fed {i n k : Nat} {m : Mach}
    (h : (phdrLoop img len e (n + k) i m).2.starved = false) :
    (phdrLoop img len e n i m).2.starved = false := by
  induction k with
  | zero => exact h
  | succ k ih =>
    apply ih
    rw [← Nat.add_assoc, phdrLoop_last] at h
    obtain ⟨r, hr⟩ : ∃ r, phdrLoop img len e (n + k) i m = r := ⟨_, rfl⟩
    rw [hr] at h ⊢
    by_cases hok : r.1 = false
    · rw [if_pos hok] at h
      exact h
    · rw [if_neg hok] at h
      by_contra hno
      rw [loadSegment_starved _ (by rw [touchBytes_starved]; simpa using hno)] at h
      exact absurd h (by simp)

end Loop

/-! ## One segment -/

/-- The address leads to a frame that is in use and no table. -/
def Placed (m : Mach) (a : Nat) : Prop :=
  ∃ f, f ≠ 0 ∧ vmmPhys a m = f * 4096 + a % 4096 ∧ ¬ IsTable m f ∧ f ∉ supply m.pmm

/-- The byte at `a` can be read as before, and written if it could. -/
structure Kept (a : Nat) (m m' : Mach) : Prop where
  mapped : vmmPhys a m' ≠ 0
  byte : byteAt m' (vmmPhys a m') = byteAt m (vmmPhys a m)
  write : Allows writable a m → Allows writable a m'

section Step

variable {img len : Nat} {p : Phdr} {m m' : Mach} {new : List Mapping} {l : List Nat}

theorem Loadable.strayed (h : Loadable m img len) (b : Bool) :
    Loadable { m with strayed := b } img len where
  paged := ⟨⟨h.paged.wf.tree, h.paged.wf.used, h.paged.wf.nonnull, h.paged.wf.pmm⟩,
    h.paged.low, h.paged.high⟩
  null := h.null
  fits := h.fits
  image := h.image

/-- The image outlasts the load of a segment. -/
theorem Filled.loadable (h : Filled img p m m' new l) (hm : Loadable m img len) :
    Loadable m' img len ∧ ∀ f, InImage img len f → m'.mem f = m.mem f := by
  have hkeep := fun f hf => h.load.untouched (hm.image f hf).2 (hm.image f hf).1
  refine ⟨⟨h.load.paged hm.paged, h.load.null_free hm.null, hm.fits, fun f hf => ?_⟩,
    fun f hf => (hkeep f hf).2.2⟩
  exact ⟨(hkeep f hf).1, (hkeep f hf).2.1⟩

theorem overlaps_byte {o : Nat} (ho : o < p.memsz) : p.Overlaps ((p.vaddr + o) / 4096) := by
  unfold Phdr.Overlaps
  omega

theorem overlaps_iff (hskip : ¬ p.skipped) (hs : p.Sane) (hr : ¬ p.refused len) {v : Nat} :
    p.Overlaps v ↔ p.vaddr / 4096 ≤ v ∧ v < p.vaddr / 4096 + p.pageCount := by
  obtain ⟨-, -, -, hfin⟩ := bounds_of_not_refused hs hr
  have hsize : p.memsz ≠ 0 := (not_or.mp hskip).2
  unfold Phdr.Overlaps Phdr.pageCount Phdr.first
  rw [hfin]
  omega

theorem Filled.page_iff (h : Filled img p m m' new l) (hskip : ¬ p.skipped) (hs : p.Sane)
    (hr : ¬ p.refused len) {v : Nat} : v ∈ pages new ↔ p.Overlaps v :=
  (wanted_page h.made).trans (overlaps_iff hskip hs hr).symm

/-- Where a page of the segment leads. -/
theorem Filled.mapping (h : Filled img p m m' new l) {a : Nat} (ha : a < 2 ^ 48)
    (hin : a / 4096 ∈ pages new) :
    ∃ f, f = frameOf p.writeFlag (a / 4096) p.pageCount p.first m ∧ f ∈ frames new ∧
      vmmPhys a m' = f * 4096 + a % 4096 ∧
        pte m' (a / 4096) = leafEntry (f * 4096) (5 + p.writeFlag) := by
  obtain ⟨x, hx, hpage, hpte, hphys⟩ := h.load.phys_mapping ha hin
  have hflags : x.flags = 5 + p.writeFlag := by
    have hmade := mem_made hx
    rw [h.made] at hmade
    exact (mem_wanted.mp hmade).2
  rw [hflags] at hpte
  refine ⟨x.frame, ?_, List.mem_map.mpr ⟨x, hx, rfl⟩, hphys, hpte⟩
  rw [h.frame x hx, hpage]

/-- The bytes of the segment are placed. -/
theorem Filled.placed_own (h : Filled img p m m' new l) (hw : Wf m) {a : Nat} (ha : a < 2 ^ 48)
    (hin : a / 4096 ∈ pages new) : Placed m' a := by
  obtain ⟨f, -, hf, hphys, -⟩ := h.mapping ha hin
  exact ⟨f, h.load.nonnull f (Or.inl hf), hphys, h.load.frame_not_table hw hf, h.load.frame_used hf⟩

theorem Filled.placed (h : Filled img p m m' new l) (hw : Wf m) {a : Nat} (ha : a < 2 ^ 48)
    (hp : Placed m a) : Placed m' a := by
  by_cases hin : a / 4096 ∈ pages new
  · exact h.placed_own hw ha hin
  · obtain ⟨f, hf, hphys, htable, hfree⟩ := hp
    obtain ⟨htable', hfree', -⟩ := h.load.untouched hfree htable
    exact ⟨f, hf, (vmmPhys_congr (h.load.pte_other (by omega) hin)).trans hphys, htable', hfree'⟩

/-- **A byte of another page is kept.** -/
theorem Filled.kept (h : Filled img p m m' new l) {a : Nat} (ha : a < 2 ^ 48) (hp : Placed m a)
    (hout : a / 4096 ∉ pages new) : Kept a m m' := by
  obtain ⟨f, hf, hphys, htable, hfree⟩ := hp
  have hoff : a % 4096 < 4096 := Nat.mod_lt a (by omega)
  have hpte := h.load.pte_other (show a / 4096 < 2 ^ 36 by omega) hout
  have hsame : vmmPhys a m' = vmmPhys a m := vmmPhys_congr hpte
  refine ⟨by rw [hsame, hphys]; omega, ?_, ?_⟩
  · rw [hsame, hphys]
    exact byteAt_congr hoff (h.load.untouched hfree htable).2.2
  · rw [allows_page protection_writable, allows_page protection_writable, hpte]
    intro ⟨hpres, hbit, hup⟩
    exact ⟨hpres, hbit, h.load.opened writable protection_writable.opened _ hup⟩

/-- **A byte of a shared page** is kept when the new frame happens to hold it and the segment is
writable if the page was. -/
theorem Filled.shared (h : Filled img p m m' new l) (hw : Wf m) {a : Nat} (ha : a < 2 ^ 48)
    (hin : a / 4096 ∈ pages new) (hpages : ∀ k < p.memsz, (p.vaddr + k) / 4096 ∈ pages new)
    (hend : p.vaddr + p.memsz ≤ 2 ^ 48) (hout : ∀ k < p.memsz, a ≠ p.vaddr + k) :
    Kept a m m' ↔
      byteAt m (frameOf p.writeFlag (a / 4096) p.pageCount p.first m * 4096 + a % 4096) =
        byteAt m (vmmPhys a m) ∧
        (Allows writable a m → p.flags / 2 % 2 = 1) := by
  obtain ⟨f, hframe, hf, hphys, hpte⟩ := h.mapping ha hin
  have hoff : a % 4096 < 4096 := Nat.mod_lt a (by omega)
  have htable : ¬ IsTable m' f := h.load.frame_not_table hw hf
  have hf0 : f ≠ 0 := h.load.nonnull f (Or.inl hf)
  have hbyte : byteAt m' (vmmPhys a m') = byteAt m (f * 4096 + a % 4096) := by
    rw [hphys]
    refine h.rest f _ hoff htable fun k hk he => ?_
    rw [← hphys] at he
    exact hout k hk (h.load.phys_inj ha (by omega) hin (hpages k hk) he)
  have hwrite : Allows writable a m → (Allows writable a m' ↔ p.flags / 2 % 2 = 1) := by
    rw [allows_page protection_writable, allows_page protection_writable, hpte,
      leafEntry_writable, writable_flags]
    intro ⟨_, _, hup⟩
    have hup' := h.load.opened writable protection_writable.opened _ hup
    exact ⟨fun hall => hall.2.1, fun hbit => ⟨leafEntry_present _ _, hbit, hup'⟩⟩
  rw [← hframe, ← hbyte]
  constructor
  · intro hkept
    exact ⟨hkept.byte, fun hall => (hwrite hall).mp (hkept.write hall)⟩
  · intro ⟨heq, hflag⟩
    exact ⟨by rw [hphys]; omega, heq, fun hall => (hwrite hall).mpr (hflag hall)⟩

end Step

/-! ## All headers -/

/-- A load that gets through the first `n` headers. -/
structure Way (m : Mach) (img len n : Nat) : Prop where
  start : Loadable m img len
  size : ehdrSize ≤ len
  accepted : (ehdrAt m img).accepted len
  sums : SumsFit m img
  bound : n ≤ (ehdrAt m img).phnum
  unstuck : ∀ j < n, ¬ (hdr m img j).skipped →
    Splits (hdr m img j).writeFlag (hdr m img j).pageCount (hdr m img j).first
      (atHeader img len m j)
  done : (phdrLoop img len (ehdrAt m img) n 0 (touchBytes ehdrSize img m)).1 = true

/-- What a header has come to: it was passed over, or its segment was loaded. -/
def Stage (m : Mach) (img len j : Nat) : Prop :=
  ((hdr m img j).skipped ∧ headersDone img len m (j + 1) = atHeader img len m j) ∨
  (¬ (hdr m img j).skipped ∧ ¬ (hdr m img j).refused len ∧ (hdr m img j).Sane ∧
    ∃ new l, Filled img (hdr m img j) (atHeader img len m j) (headersDone img len m (j + 1)) new l)

section Way

variable {m : Mach} {img len n : Nat}

/-- `elf_load` looks at the headers when it returns 0, and gets through them all. -/
theorem headers_of_load (hok : (elfLoad img len m).1.isSome = true) :
    ehdrSize ≤ len ∧ (ehdrAt m img).accepted len ∧
    (phdrLoop img len (ehdrAt m img) (ehdrAt m img).phnum 0 (touchBytes ehdrSize img m)).1 = true ∧
    (elfLoad img len m).2 = headersDone img len m (ehdrAt m img).phnum := by
  have hlen : ¬ len < ehdrSize := by
    intro hlt
    unfold elfLoad at hok
    rw [if_pos hlt] at hok
    exact absurd hok (by simp)
  have hacc : (ehdrAt m img).accepted len := by
    by_contra hno
    unfold elfLoad at hok
    rw [if_neg hlen] at hok
    dsimp only at hok
    rw [if_pos hno] at hok
    exact absurd hok (by simp)
  refine ⟨Nat.le_of_not_lt hlen, hacc, ?_, elfLoad_state hlen hacc⟩
  by_contra hno
  unfold elfLoad at hok
  rw [if_neg hlen] at hok
  dsimp only at hok
  rw [if_neg (not_not.mpr hacc), if_pos (by simpa using hno)] at hok
  exact absurd hok (by simp)

theorem way_of_load (h : Loadable m img len) (hsums : SumsFit m img) (hun : Unstuck m img len)
    (hok : (elfLoad img len m).1.isSome = true) : Way m img len (ehdrAt m img).phnum := by
  obtain ⟨hlen, hacc, hdone, -⟩ := headers_of_load hok
  exact ⟨h, hlen, hacc, hsums, Nat.le_refl _, hun, hdone⟩

variable (w : Way m img len n)
include w

/-- Header `j` reads the same whenever the image does. -/
theorem Way.header {m' : Mach} (h : ∀ f, InImage img len f → m'.mem f = m.mem f) {j : Nat}
    (hj : j < (ehdrAt m img).phnum) : phdrAt m' (hdrAddr img (ehdrAt m img) j) = hdr m img j :=
  phdrAt_same w.start.fits h w.accepted w.sums.table hj

theorem Way.run {j : Nat} (hj : j < n)
    (h : ∀ f, InImage img len f → (headersDone img len m j).mem f = m.mem f) :
    (loadSegment img len (hdr m img j) (atHeader img len m j)).1 = true ∧
      headersDone img len m (j + 1) =
        (loadSegment img len (hdr m img j) (atHeader img len m j)).2 := by
  have htrue : ∀ k ≤ n,
      (phdrLoop img len (ehdrAt m img) k 0 (touchBytes ehdrSize img m)).1 = true := by
    intro k hk
    have hdone := w.done
    rw [show n = k + (n - k) by omega] at hdone
    exact phdrLoop_true hdone
  have hlast := @phdrLoop_last img len (ehdrAt m img) j 0 (touchBytes ehdrSize img m)
  rw [if_neg (by rw [htrue j (by omega)]; simp), Nat.zero_add] at hlast
  have hhdr := w.header h (Nat.lt_of_lt_of_le hj w.bound)
  unfold headersDone at hhdr
  rw [hhdr] at hlast
  have hnext := htrue (j + 1) hj
  unfold headersDone atHeader headersDone
  rw [hlast] at hnext ⊢
  exact ⟨hnext, rfl⟩

/-- The bytes of the file lie in the image. -/
theorem Way.inside {j o : Nat} (hj : j < n) (hskip : ¬ (hdr m img j).skipped)
    (hr : ¬ (hdr m img j).refused len) (ho : o < (hdr m img j).filesz) :
    InImage img len ((img + (hdr m img j).off + o) % 2 ^ 64 / 4096) := by
  have hsum := (w.sums.segments j (Nat.lt_of_lt_of_le hj w.bound) hskip).1
  have hfit := w.start.fits
  obtain ⟨hfirst, -⟩ := not_or.mp hr
  rw [Nat.mod_eq_of_lt hsum] at hfirst
  refine ⟨(hdr m img j).off + o, by omega, ?_⟩
  rw [← Nat.add_assoc, Nat.mod_eq_of_lt (by omega)]

theorem Way.stage_of {j : Nat} (hj : j < n)
    (h : Loadable (headersDone img len m j) img len)
    (hsame : ∀ f, InImage img len f → (headersDone img len m j).mem f = m.mem f) :
    Stage m img len j := by
  obtain ⟨hok, hnext⟩ := w.run hj hsame
  unfold Stage
  rw [hnext]
  by_cases hskip : (hdr m img j).skipped
  · left
    refine ⟨hskip, ?_⟩
    rw [loadSegment, if_pos hskip]
  · right
    have hr : ¬ (hdr m img j).refused len := by
      intro hr
      rw [loadSegment, if_neg hskip, if_pos hr] at hok
      exact absurd hok (by simp)
    obtain ⟨b, hb⟩ := touchBytes_strayed phdrSize (hdrAddr img (ehdrAt m img) j)
      (headersDone img len m j)
    have hhere : Loadable (atHeader img len m j) img len := by
      rw [atHeader, hb]
      exact h.strayed b
    have hsane : (hdr m img j).Sane := (w.sums.segments j (Nat.lt_of_lt_of_le hj w.bound) hskip).2
    rw [loadSegment, if_neg hskip, if_neg hr] at hok ⊢
    exact ⟨hskip, hr, hsane, fillSegment_filled hskip hsane hr hhere.paged hhere.null
      (fun o ho => hhere.image _ (w.inside hj hskip hr ho)) (w.unstuck j hj hskip) hok⟩

/-- **The tables and the image all the way.** -/
theorem Way.state : ∀ {j : Nat}, j ≤ n → Loadable (headersDone img len m j) img len ∧
    ∀ f, InImage img len f → (headersDone img len m j).mem f = m.mem f
  | 0, _ => by
    obtain ⟨b, hb⟩ := touchBytes_strayed ehdrSize img m
    have hrun : headersDone img len m 0 = { m with strayed := b } := hb
    rw [hrun]
    exact ⟨w.start.strayed b, fun _ _ => rfl⟩
  | j + 1, hj => by
    obtain ⟨hload, hsame⟩ := Way.state (j := j) (by omega)
    obtain ⟨b, hb⟩ := touchBytes_strayed phdrSize (hdrAddr img (ehdrAt m img) j)
      (headersDone img len m j)
    have hhere : Loadable (atHeader img len m j) img len := by
      rw [atHeader, hb]
      exact hload.strayed b
    have hmem : (atHeader img len m j).mem = (headersDone img len m j).mem := by
      rw [atHeader, hb]
    rcases w.stage_of hj hload hsame with ⟨-, hnext⟩ | ⟨-, -, -, new, l, hfilled⟩
    · rw [hnext]
      exact ⟨hhere, fun f hf => by rw [hmem, hsame f hf]⟩
    · obtain ⟨hload', hsame'⟩ := hfilled.loadable hhere
      exact ⟨hload', fun f hf => by rw [hsame' f hf, hmem, hsame f hf]⟩

theorem Way.stage {j : Nat} (hj : j < n) : Stage m img len j :=
  w.stage_of hj (w.state (by omega)).1 (w.state (by omega)).2

/-- The state behind the headers before, with nothing but reads since. -/
theorem Way.here {j : Nat} (hj : j ≤ n) : Loadable (atHeader img len m j) img len ∧
    (∀ f, InImage img len f → (atHeader img len m j).mem f = m.mem f) ∧
    ∃ b, atHeader img len m j = { headersDone img len m j with strayed := b } := by
  obtain ⟨hload, hsame⟩ := w.state hj
  obtain ⟨b, hb⟩ := touchBytes_strayed phdrSize (hdrAddr img (ehdrAt m img) j)
    (headersDone img len m j)
  rw [← atHeader] at hb
  rw [hb]
  exact ⟨hload.strayed b, hsame, b, rfl⟩

/-- The bounds of a segment that was loaded. -/
theorem Way.bounds {j : Nat} (hj : j < n) (hskip : ¬ (hdr m img j).skipped) :
    ¬ (hdr m img j).refused len ∧ (hdr m img j).Sane ∧
      (hdr m img j).vaddr + (hdr m img j).memsz ≤ 2 ^ 48 := by
  rcases w.stage hj with ⟨hno, -⟩ | ⟨-, hr, hs, -⟩
  · exact absurd hno hskip
  · have hend := (bounds_of_not_refused hs hr).2.1
    have hmax : userMax = 0x40000000 := rfl
    exact ⟨hr, hs, by omega⟩

end Way

/-- **No page is stuck** when no table allocation fails. -/
theorem unstuck_of_fed {m : Mach} {img len : Nat} (h : Loadable m img len) (hsums : SumsFit m img)
    (hok : (elfLoad img len m).1.isSome = true) (hfed : (elfLoad img len m).2.starved = false) :
    Unstuck m img len := by
  obtain ⟨hlen, hacc, hdone, hend⟩ := headers_of_load hok
  rw [hend] at hfed
  have hall : ∀ n ≤ (ehdrAt m img).phnum,
      (phdrLoop img len (ehdrAt m img) n 0 (touchBytes ehdrSize img m)).1 = true ∧
      (headersDone img len m n).starved = false := by
    intro n hn
    unfold headersDone at hfed ⊢
    rw [show (ehdrAt m img).phnum = n + ((ehdrAt m img).phnum - n) by omega] at hdone hfed
    exact ⟨phdrLoop_true hdone, phdrLoop_fed hfed⟩
  have hway : ∀ n ≤ (ehdrAt m img).phnum, Way m img len n := by
    intro n
    induction n with
    | zero => exact fun hn => ⟨h, hlen, hacc, hsums, hn, fun j hj => absurd hj (Nat.not_lt_zero j),
      rfl⟩
    | succ n ih =>
      intro hn
      have w := ih (by omega)
      refine ⟨h, hlen, hacc, hsums, hn, fun j hj hskip => ?_, (hall _ hn).1⟩
      by_cases hlast : j < n
      · exact w.unstuck j hlast hskip
      · obtain rfl : j = n := by omega
        obtain ⟨hhere, -⟩ := w.here (Nat.le_refl _)
        have hhdr := w.header (w.state (Nat.le_refl _)).2 hn
        obtain ⟨hdone', hfed'⟩ := hall _ hn
        unfold headersDone at hfed' hhdr
        rw [phdrLoop_last, if_neg (by rw [(hall j (by omega)).1]; simp), Nat.zero_add,
          hhdr, loadSegment, if_neg hskip]
          at hdone' hfed'
        have hr : ¬ (hdr m img j).refused len := by
          intro hr
          rw [if_pos hr] at hdone'
          exact absurd hdone' (by simp)
        rw [if_neg hr, fillSegment_keeps_starved] at hfed'
        exact splits_of_fed _ hhere.paged hfed'
  exact (hway _ (Nat.le_refl _)).unstuck

section Way

variable {m : Mach} {img len n : Nat} (w : Way m img len n)
include w

/-! ## The segments in their places -/

/-- What every segment that is loaded leaves behind of its bytes, and every later one keeps, holds
of all segments loaded so far. -/
theorem Way.each {P : Mach → Nat → Nat → Prop}
    (hread : ∀ s b i o, P s i o → P { s with strayed := b } i o)
    (hown : ∀ j < n, ¬ (hdr m img j).skipped → ∀ new l,
      Filled img (hdr m img j) (atHeader img len m j) (headersDone img len m (j + 1)) new l →
      ∀ o < (hdr m img j).memsz, P (headersDone img len m (j + 1)) j o)
    (hlater : ∀ j < n, ¬ (hdr m img j).skipped → ∀ new l,
      Filled img (hdr m img j) (atHeader img len m j) (headersDone img len m (j + 1)) new l →
      ∀ i < j, ¬ (hdr m img i).skipped → ∀ o < (hdr m img i).memsz,
        P (atHeader img len m j) i o → P (headersDone img len m (j + 1)) i o) :
    ∀ {j : Nat}, j ≤ n → ∀ i < j, ¬ (hdr m img i).skipped → ∀ o < (hdr m img i).memsz,
      P (headersDone img len m j) i o
  | 0, _, i, hi, _, _, _ => absurd hi (Nat.not_lt_zero i)
  | j + 1, hj, i, hi, hskip, o, ho => by
    obtain ⟨-, -, b, hb⟩ := w.here (show j ≤ n by omega)
    have hbefore : i < j → P (atHeader img len m j) i o := by
      intro hlt
      rw [hb]
      exact hread _ b i o (Way.each hread hown hlater (by omega) i hlt hskip o ho)
    rcases w.stage (show j < n by omega) with ⟨hno, hnext⟩ | ⟨hskip', -, -, new, l, hfilled⟩
    · rw [hnext]
      refine hbefore (Nat.lt_of_le_of_ne (by omega) ?_)
      intro he
      subst he
      exact hskip hno
    · by_cases he : i = j
      · subst he
        exact hown i (by omega) hskip new l hfilled o ho
      · exact hlater j (by omega) hskip' new l hfilled i (by omega) hskip o ho (hbefore (by omega))

/-- The bytes of the segments loaded so far are in frames of their own. -/
theorem Way.placed {j : Nat} : j ≤ n → ∀ i < j, ¬ (hdr m img i).skipped →
    ∀ o < (hdr m img i).memsz, Placed (headersDone img len m j) ((hdr m img i).vaddr + o) := by
  refine w.each (P := fun s i o => Placed s ((hdr m img i).vaddr + o)) (fun _ _ _ _ h => h) ?_ ?_
  · intro j hj hskip new l hfilled o ho
    obtain ⟨hr, hs, hend⟩ := w.bounds hj hskip
    exact hfilled.placed_own (w.here hj.le).1.paged.wf (by omega)
      ((hfilled.page_iff hskip hs hr).mpr (overlaps_byte ho))
  · intro j hj _ new l hfilled i hi hskip o ho hplace
    obtain ⟨-, -, hend⟩ := w.bounds (hi.trans hj) hskip
    exact hfilled.placed (w.here hj.le).1.paged.wf (by omega) hplace

/-- The bytes of a segment are those of the file as long as the image stays. -/
theorem Way.byte_same {m' : Mach} (h : ∀ f, InImage img len f → m'.mem f = m.mem f) {j o : Nat}
    (hj : j < n) (hskip : ¬ (hdr m img j).skipped) :
    (hdr m img j).byte img m' o = (hdr m img j).byte img m o := by
  unfold Phdr.byte
  split
  · next ho =>
    unfold byteAt
    rw [h _ (w.inside hj hskip (w.bounds hj hskip).1 ho)]
  · rfl

/-- **The bytes of the segments** loaded so far, when no two of them have a page in common. -/
theorem Way.bytes (hdisj : PagesDisjoint m img) {j : Nat} : j ≤ n → ∀ i < j,
    ¬ (hdr m img i).skipped → ∀ o < (hdr m img i).memsz,
    byteAt (headersDone img len m j) (vmmPhys ((hdr m img i).vaddr + o) (headersDone img len m j)) =
      (hdr m img i).byte img m o := by
  refine w.each (P := fun s i o => byteAt s (vmmPhys ((hdr m img i).vaddr + o) s) =
    (hdr m img i).byte img m o) (fun _ _ _ _ h => h) ?_ ?_
  · intro j hj hskip new l hfilled o ho
    rw [hfilled.bytes o ho, w.byte_same (w.here hj.le).2.1 hj hskip]
  · intro j hj hskip' new l hfilled i hi hskip o ho hbyte
    obtain ⟨-, -, b, hb⟩ := w.here hj.le
    obtain ⟨hr', hs', -⟩ := w.bounds hj hskip'
    obtain ⟨-, -, hend⟩ := w.bounds (hi.trans hj) hskip
    have hplace : Placed (atHeader img len m j) ((hdr m img i).vaddr + o) := by
      rw [hb]
      exact w.placed hj.le i hi hskip o ho
    have hout : ((hdr m img i).vaddr + o) / 4096 ∉ pages new := by
      intro hin
      have hbound := w.bound
      exact hdisj i (by omega) j (by omega) (by omega) hskip hskip' _ (overlaps_byte ho)
        ((hfilled.page_iff hskip' hs' hr').mp hin)
    rw [(hfilled.kept (by omega) hplace hout).byte, hbyte]

end Way

end InaneOS.Mem
