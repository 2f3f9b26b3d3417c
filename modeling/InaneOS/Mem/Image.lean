import InaneOS.Mem.Serve

/-!
# The image in memory

The loader trusts the bytes of the image to stay what they are while it maps and fills
pages. They do when the image lies in frames that are in use and are no tables
(`imageOk_of`), as long as the sums of header fields do not wrap and lead out of the
image (`NoWrap`).
-/

namespace InaneOS.Mem

open InaneOS.Lib

/-- A frame of the image of `len` bytes at `img`. -/
def InImage (img len f : Nat) : Prop := ∃ k < len, (img + k) / 4096 = f

/-- Header `j` of the image. -/
def hdr (m : Mach) (img j : Nat) : Phdr := phdrAt m (hdrAddr img (ehdrAt m img) j)

/-- The sums of header fields that a load rests on do not wrap: the end of the header table, and
the end of every segment that is mapped. -/
structure NoWrap (m : Mach) (img len : Nat) : Prop where
  headers : ehdrSize ≤ len → (ehdrAt m img).accepted len →
    (ehdrAt m img).phoff + (ehdrAt m img).phnum * (ehdrAt m img).phentsize < 2 ^ 64
  segments : ehdrSize ≤ len → (ehdrAt m img).accepted len → ∀ j < (ehdrAt m img).phnum,
    ¬ (hdr m img j).skipped → ¬ (hdr m img j).refused len → (hdr m img j).Sane

/-! ## Reading the same bytes -/

theorem readLe_same {m m' : Mach} : ∀ {n p : Nat}, p + n < 2 ^ 64 →
    (∀ k < n, m'.mem ((p + k) / 4096) = m.mem ((p + k) / 4096)) → readLe m' n p = readLe m n p
  | 0, _, _, _ => rfl
  | n + 1, p, hp, h => by
    have hhere : m'.mem (p / 4096) = m.mem (p / 4096) := h 0 (by omega)
    have hbyte : byteAt m' p = byteAt m p := by
      unfold byteAt
      rw [hhere]
    have hrest : readLe m' n (p + 1) = readLe m n (p + 1) := by
      refine readLe_same (by omega) fun k hk => ?_
      rw [show p + 1 + k = p + (k + 1) by omega]
      exact h (k + 1) (by omega)
    rw [readLe, readLe, Nat.mod_eq_of_lt (show p + 1 < 2 ^ 64 by omega), hbyte, hrest]

theorem readLe_mem {m m' : Mach} (h : m'.mem = m.mem) : ∀ (n p : Nat), readLe m' n p = readLe m n p
  | 0, _ => rfl
  | n + 1, p => by
    have hbyte : byteAt m' p = byteAt m p := by
      unfold byteAt
      rw [h]
    rw [readLe, readLe, hbyte, readLe_mem h n]

theorem phdrAt_mem {m m' : Mach} (h : m'.mem = m.mem) (a : Nat) : phdrAt m' a = phdrAt m a := by
  unfold phdrAt
  simp only [readLe_mem h]

/-- A field of a structure. -/
theorem field_same {m m' : Mach} {a size n o : Nat} (ha : a + size < 2 ^ 64) (ho : o + n ≤ size)
    (h : ∀ k < size, m'.mem ((a + k) / 4096) = m.mem ((a + k) / 4096)) :
    readLe m' n (a + o) = readLe m n (a + o) := by
  refine readLe_same (by omega) fun k hk => ?_
  rw [Nat.add_assoc]
  exact h (o + k) (by omega)

theorem ehdrAt_eq {m m' : Mach} {a : Nat} (ha : a + 64 < 2 ^ 64)
    (h : ∀ k < 64, m'.mem ((a + k) / 4096) = m.mem ((a + k) / 4096)) :
    ehdrAt m' a = ehdrAt m a := by
  have hread : ∀ {n o : Nat}, o + n ≤ 64 → readLe m' n (a + o) = readLe m n (a + o) :=
    fun ho => field_same ha ho h
  have hzero : readLe m' 4 a = readLe m 4 a := hread (show 0 + 4 ≤ 64 by omega)
  unfold ehdrAt
  rw [hzero, hread (show 4 + 1 ≤ 64 by omega), hread (show 5 + 1 ≤ 64 by omega),
    hread (show 18 + 2 ≤ 64 by omega), hread (show 24 + 8 ≤ 64 by omega),
    hread (show 32 + 8 ≤ 64 by omega), hread (show 54 + 2 ≤ 64 by omega),
    hread (show 56 + 2 ≤ 64 by omega)]

theorem phdrAt_eq {m m' : Mach} {a : Nat} (ha : a + 56 < 2 ^ 64)
    (h : ∀ k < 56, m'.mem ((a + k) / 4096) = m.mem ((a + k) / 4096)) :
    phdrAt m' a = phdrAt m a := by
  have hread : ∀ {n o : Nat}, o + n ≤ 56 →
      readLe m' n ((a + o) % 2 ^ 64) = readLe m n ((a + o) % 2 ^ 64) := by
    intro n o ho
    rw [Nat.mod_eq_of_lt (show a + o < 2 ^ 64 by omega)]
    exact field_same ha ho h
  have hzero : readLe m' 4 a = readLe m 4 a := field_same ha (show 0 + 4 ≤ 56 by omega) h
  unfold phdrAt
  rw [hzero, hread (show 4 + 4 ≤ 56 by omega), hread (show 8 + 8 ≤ 56 by omega),
    hread (show 16 + 8 ≤ 56 by omega), hread (show 32 + 8 ≤ 56 by omega),
    hread (show 40 + 8 ≤ 56 by omega)]

/-! ## The headers lie in the image -/

section Image

variable {m m' : Mach} {img len : Nat}

/-- The header table of an accepted image ends inside it. -/
theorem Ehdr.table_inside {e : Ehdr} (hacc : e.accepted len)
    (hwrap : e.phoff + e.phnum * e.phentsize < 2 ^ 64) {j : Nat} (hj : j < e.phnum) :
    e.phoff + j * e.phentsize + phdrSize ≤ len := by
  obtain ⟨-, -, -, -, hsize, hend⟩ := hacc
  have hent : phdrSize ≤ e.phentsize := hsize (by omega)
  have hstep : (j + 1) * e.phentsize ≤ e.phnum * e.phentsize := Nat.mul_le_mul_right _ hj
  rw [Nat.mod_eq_of_lt hwrap] at hend
  rw [Nat.succ_mul] at hstep
  omega

/-- Header `j` of an accepted image lies inside it. -/
theorem hdrAddr_inside {e : Ehdr} (hfit : img + len < 2 ^ 64) (hacc : e.accepted len)
    (hwrap : e.phoff + e.phnum * e.phentsize < 2 ^ 64) {j : Nat} (hj : j < e.phnum) :
    img ≤ hdrAddr img e j ∧ hdrAddr img e j + 56 ≤ img + len := by
  have hend := e.table_inside hacc hwrap hj
  unfold phdrSize at hend
  have haddr : hdrAddr img e j = img + e.phoff + j * e.phentsize := Nat.mod_eq_of_lt (by omega)
  rw [haddr]
  omega

theorem inImage_of {a n k : Nat} (ha : img ≤ a) (hn : a + n ≤ img + len) (hk : k < n) :
    InImage img len ((a + k) / 4096) :=
  ⟨a + k - img, by omega, by rw [show img + (a + k - img) = a + k by omega]⟩

section Same

variable (hfit : img + len < 2 ^ 64) (h : ∀ f, InImage img len f → m'.mem f = m.mem f)

include hfit h

theorem ehdrAt_same (hlen : ehdrSize ≤ len) : ehdrAt m' img = ehdrAt m img := by
  have h64 : 64 ≤ len := hlen
  exact ehdrAt_eq (by omega) fun k hk =>
    h _ (inImage_of (Nat.le_refl _) (show img + 64 ≤ img + len by omega) hk)

theorem phdrAt_same {e : Ehdr} (hacc : e.accepted len)
    (hwrap : e.phoff + e.phnum * e.phentsize < 2 ^ 64) {j : Nat} (hj : j < e.phnum) :
    phdrAt m' (hdrAddr img e j) = phdrAt m (hdrAddr img e j) := by
  obtain ⟨hlo, hhi⟩ := hdrAddr_inside hfit hacc hwrap hj
  exact phdrAt_eq (by omega) fun k hk => h _ (inImage_of hlo hhi hk)

theorem hdr_same (hlen : ehdrSize ≤ len) (hw : NoWrap m img len)
    (hacc : (ehdrAt m img).accepted len)
    {j : Nat} (hj : j < (ehdrAt m img).phnum) : hdr m' img j = hdr m img j := by
  unfold hdr
  rw [ehdrAt_same hfit h hlen]
  exact phdrAt_same hfit h hacc (hw.headers hlen hacc) hj

theorem NoWrap.same (hw : NoWrap m img len) : NoWrap m' img len := by
  refine ⟨fun hlen hacc => ?_, fun hlen hacc j hj hs hr => ?_⟩
  · rw [ehdrAt_same hfit h hlen] at hacc ⊢
    exact hw.headers hlen hacc
  · rw [ehdrAt_same hfit h hlen] at hacc hj
    rw [hdr_same hfit h hlen hw hacc hj] at hs hr ⊢
    exact hw.segments hlen hacc j hj hs hr

end Same

theorem planFrom_congr {hdr hdr' : Nat → Phdr} :
    ∀ {n i : Nat}, (∀ j, i ≤ j → j < i + n → hdr' j = hdr j) →
    planFrom len hdr' n i = planFrom len hdr n i
  | 0, _, _ => rfl
  | n + 1, i, h => by
    have hrest : planFrom len hdr' n (i + 1) = planFrom len hdr n (i + 1) :=
      planFrom_congr fun j hj hj' => h j (by omega) (by omega)
    rw [planFrom, planFrom, h i (Nat.le_refl _) (by omega), hrest]

/-- The same headers ask for the same pages. -/
theorem elfPlan_congr (he : ehdrSize ≤ len → ehdrAt m' img = ehdrAt m img)
    (hp : (ehdrAt m img).accepted len → ∀ j < (ehdrAt m img).phnum,
      phdrAt m' (hdrAddr img (ehdrAt m img) j) = phdrAt m (hdrAddr img (ehdrAt m img) j)) :
    elfPlan m' img len = elfPlan m img len := by
  unfold elfPlan
  by_cases hlen : len < ehdrSize
  · rw [if_pos (Or.inl hlen), if_pos (Or.inl hlen)]
  · rw [he (by omega)]
    by_cases hacc : (ehdrAt m img).accepted len
    · have hplan : planFrom len (fun j => phdrAt m' (hdrAddr img (ehdrAt m img) j))
        (ehdrAt m img).phnum 0 =
          planFrom len (fun j => phdrAt m (hdrAddr img (ehdrAt m img) j)) (ehdrAt m img).phnum 0 :=
        planFrom_congr fun j _ hj => hp hacc j (by omega)
      rw [hplan]
    · rw [if_pos (Or.inr hacc), if_pos (Or.inr hacc)]

theorem elfPlan_same (hfit : img + len < 2 ^ 64) (h : ∀ f, InImage img len f → m'.mem f = m.mem f)
    (hw : NoWrap m img len) : elfPlan m' img len = elfPlan m img len := by
  by_cases hlen : ehdrSize ≤ len
  · exact elfPlan_congr (ehdrAt_same hfit h) fun hacc j hj =>
      phdrAt_same hfit h hacc (hw.headers hlen hacc) hj
  · unfold elfPlan
    rw [if_pos (Or.inl (by omega)), if_pos (Or.inl (by omega))]

theorem programPlan_same (hfit : img + len < 2 ^ 64)
    (h : ∀ f, InImage img len f → m'.mem f = m.mem f) (hw : NoWrap m img len) :
    programPlan m' img len = programPlan m img len := by
  unfold programPlan
  rw [elfPlan_same hfit h hw]

/-! ## The pages asked for -/

theorem mem_wanted {p : Phdr} {x : Nat × Nat} : x ∈ p.wanted ↔
    (p.vaddr / 4096 ≤ x.1 ∧ x.1 < p.vaddr / 4096 + p.pageCount) ∧ x.2 = 5 + p.writeFlag := by
  unfold Phdr.wanted wanted
  rw [List.mem_map]
  constructor
  · intro h
    obtain ⟨v, hv, rfl⟩ := h
    exact ⟨List.mem_range'_1.mp hv, rfl⟩
  · intro h
    obtain ⟨hv, hx⟩ := h
    exact ⟨x.1, List.mem_range'_1.mpr hv, by rw [← hx]⟩

/-- Every page is asked for by a header that passed its checks. -/
theorem mem_planFrom {hdr : Nat → Phdr} {x : Nat × Nat} :
    ∀ {n i : Nat}, x ∈ (planFrom len hdr n i).1 →
    ∃ j < i + n, ¬ (hdr j).skipped ∧ ¬ (hdr j).refused len ∧ x ∈ (hdr j).wanted
  | 0, _, h => absurd h (by simp [planFrom])
  | n + 1, i, h => by
    have hlater : x ∈ (planFrom len hdr n (i + 1)).1 →
        ∃ j < i + (n + 1), ¬ (hdr j).skipped ∧ ¬ (hdr j).refused len ∧ x ∈ (hdr j).wanted := by
      intro hx
      obtain ⟨j, hj, hhdr⟩ := mem_planFrom hx
      exact ⟨j, by omega, hhdr⟩
    unfold planFrom at h
    split at h
    · exact hlater h
    · next hs =>
      split at h
      · exact absurd h (by simp)
      · next hr =>
        rcases List.mem_append.mp h with hx | hx
        · exact ⟨i, by omega, hs, hr, hx⟩
        · exact hlater hx

theorem mem_elfPlan {x : Nat × Nat} (h : x ∈ (elfPlan m img len).1) :
    ehdrSize ≤ len ∧ (ehdrAt m img).accepted len ∧ ∃ j < (ehdrAt m img).phnum,
      ¬ (hdr m img j).skipped ∧ ¬ (hdr m img j).refused len ∧ x ∈ (hdr m img j).wanted := by
  unfold elfPlan at h
  split at h
  · exact absurd h (by simp)
  · next hhead =>
    rw [not_or, not_not] at hhead
    obtain ⟨j, hj, hhdr⟩ := mem_planFrom h
    exact ⟨by omega, hhead.2, j, by omega, hhdr⟩

/-- The pages of the plan lie in the user range. -/
theorem programPlan_range (hw : NoWrap m img len) {x : Nat × Nat} (h : x ∈ programPlan m img len) :
    0x400 ≤ x.1 ∧ x.1 < 0x40002 := by
  rcases List.mem_append.mp h with h | h
  · obtain ⟨hlen, hacc, j, hj, hs, hr, hx⟩ := mem_elfPlan h
    have hsane := hw.segments hlen hacc j hj hs hr
    have hbound := bounds_of_not_refused hsane hr
    have hcount := pageCount_le hsane hr
    have hmem := (mem_wanted.mp hx).1
    unfold userMin at hbound
    omega
  · split at h
    · rw [stackWant, List.mem_cons, List.mem_singleton] at h
      rcases h with rfl | rfl
      · decide
      · decide
    · exact absurd h (by simp)

/-! ## The image of a load -/

/-- **An image in frames of its own** reads the same all through the load. -/
theorem imageOk_of {I : Nat → Prop} (hw : Wf m) (hfit : img + len < 2 ^ 64)
    (hown : ∀ f, InImage img len f → m.pmm.used f = true ∧ ¬ IsTable m f)
    (hI : ∀ f, InImage img len f → I f) (hwrap : NoWrap m img len)
    (hin : ehdrSize ≤ len → (ehdrAt m img).accepted len → ∀ j < (ehdrAt m img).phnum,
      ¬ (hdr m img j).skipped → ¬ (hdr m img j).refused len → (hdr m img j).In I img) :
    ImageOk I m img len where
  head hlen := by
    have h64 : 64 ≤ len := hlen
    refine ⟨?_, fun k hk => hI _ (inImage_of (Nat.le_refl _) (show img + 64 ≤ img + len by omega)
      hk)⟩
    unfold ehdrSize
    omega
  read hlen hacc j hj := by
    obtain ⟨hlo, hhi⟩ := hdrAddr_inside hfit hacc (hwrap.headers hlen hacc) hj
    refine ⟨fun ms l m' hload => ?_, ?_, fun k hk => hI _ (inImage_of hlo hhi hk)⟩
    · exact phdrAt_same hfit (fun f hf => hload.keeps hw (hown f hf).1 (hown f hf).2) hacc
        (hwrap.headers hlen hacc) hj
    · unfold phdrSize
      omega
  good hlen hacc j hj hs hr := ⟨hwrap.segments hlen hacc j hj hs hr, hin hlen hacc j hj hs hr⟩

end Image

end InaneOS.Mem
