import InaneOS.Fat.Tree

/-!
# Certifying a volume

`Tree` talks about every reference, and references are defined by reachability.
To show that a concrete volume is well-formed one lists its references with
their chains; `Certified` is then a finite check of that list, and
`Certified.wellFormed` says that it is enough. The sample volume at the end, a
partition from sector 1 on with the file `/A/F`, is certified this way.
-/

namespace InaneOS.Fat

open InaneOS.Lib

/-- `ValidName`, computed. -/
def nameOk (e : Nat → UInt8) : Bool :=
  let b := ((List.range 8).map e).takeWhile (· != blank)
  let x := ((List.range 3).map fun i => e (8 + i)).takeWhile (· != blank)
  b != [] && b.all validChar && x.all validChar && raw11 e == pad 8 b ++ pad 3 x

theorem validName_of_nameOk {e : Nat → UInt8} (h : nameOk e = true) : ValidName e := by
  simp only [nameOk, Bool.and_eq_true, bne_iff_ne, ne_eq, List.all_eq_true, beq_iff_eq] at h
  obtain ⟨⟨⟨hne, hb⟩, hx⟩, hraw⟩ := h
  refine ⟨_, _, ⟨hne, ?_, ?_, hb, hx⟩, hraw⟩
  · have hlen := (List.takeWhile_prefix (· != blank) (l := (List.range 8).map e)).length_le
    simpa using hlen
  · have hlen := (List.takeWhile_prefix (· != blank)
      (l := (List.range 3).map fun i => e (8 + i))).length_le
    simpa using hlen

/-- `ClusChain`, computed. -/
def chainOk (g : Geo) (d : Disk) : Nat → List Nat → Bool
  | c, [] => decide (eoc ≤ c)
  | c, x :: xs =>
    decide (c = x) && decide (x < eoc) && decide (InRange g x) && chainOk g d (link g d x) xs

theorem clusChain_of_chainOk {g : Geo} {d : Disk} : ∀ {c : Nat} {cs : List Nat},
    chainOk g d c cs = true → ClusChain g d c cs
  | c, [], h => ⟨show eoc ≤ c from of_decide_eq_true h, by simp⟩
  | c, x :: xs, h => by
    simp only [chainOk, Bool.and_eq_true, decide_eq_true_eq] at h
    obtain ⟨⟨⟨hc, hx⟩, hin⟩, hrest⟩ := h
    obtain ⟨hch, hall⟩ := clusChain_of_chainOk hrest
    refine ⟨⟨hc, Nat.not_le.mpr hx, hch⟩, fun y hy => ?_⟩
    rcases List.mem_cons.mp hy with rfl | hy
    · exact hin
    · exact hall y hy

/-- `l` lists the references of the volume with their chains; an empty file has
none. -/
structure Certified (g : Geo) (d : Disk) (l : List (Option Slot × List Nat)) : Prop where
  geo : g.Ok
  size : ∃ total, d.drive = Drive.ofSize total ∧ g.dataStart ≤ total
  root : none ∈ l.map Prod.fst
  dirs : ∀ p ∈ l, isDir d p.1 = true → chainOk g d (first g d p.1) p.2 = true ∧ p.2 ≠ [] ∧
    (∀ s ∈ secsOf g p.2, d.drive.Works s) ∧
    ((slots g p.2).Pairwise fun a b => ent d a 0 = 0 → ent d b 0 = 0) ∧
    (∀ a ∈ slots g p.2, ∀ b ∈ slots g p.2, (entryName (ent d a)).isSome = true →
      (entryName (ent d b)).isSome = true → raw11 (ent d a) = raw11 (ent d b) → a = b) ∧
    ∀ sl ∈ slots g p.2, (entryName (ent d sl)).isSome = true →
      nameOk (ent d sl) = true ∧ some sl ∈ l.map Prod.fst
  files : ∀ p ∈ l, isDir d p.1 = false → (chainOk g d (first g d p.1) p.2 = true ∧ p.2 ≠ [] ∧
      ∀ sl, p.1 = some sl → entSize (ent d sl) ≤ p.2.length * g.secPerClus * 512) ∨
    (∀ sl, p.1 = some sl → entClus (ent d sl) = 0 ∧ entSize (ent d sl) = 0) ∧ p.2 = []
  disj : ∀ p ∈ l, ∀ q ∈ l, p.1 ≠ q.1 → ∀ x ∈ p.2, x ∉ q.2
  copies : Copies g d

namespace Certified

variable {g : Geo} {d : Disk} {l : List (Option Slot × List Nat)} (h : Certified g d l)

include h

/-- The chain listed for a reference is its chain. -/
theorem chain {p : Option Slot × List Nat} (hp : p ∈ l) {cs : List Nat}
    (hcs : ClusChain g d (first g d p.1) cs) : cs = p.2 := by
  cases hd : isDir d p.1 with
  | true => exact hcs.unique (clusChain_of_chainOk (h.dirs p hp hd).1)
  | false =>
    rcases h.files p hp hd with hf | ⟨h0, -⟩
    · exact hcs.unique (clusChain_of_chainOk hf.1)
    · cases hp1 : p.1 with
      | none =>
        rw [hp1] at hd
        exact absurd hd (by simp [isDir])
      | some sl =>
        rw [hp1, first, (h0 sl hp1).1] at hcs
        exact (chain_zero hcs).elim

/-- Everything a path can reach is listed. -/
theorem ref {r : Option Slot} (hr : Ref g d r) : r ∈ l.map Prod.fst := by
  induction hr with
  | root => exact h.root
  | @entry r sl _ hc ih =>
    obtain ⟨p, hp, rfl⟩ := List.mem_map.mp ih
    obtain ⟨hd, cs, hcs, hsl, nm, hn⟩ := hc
    rw [h.chain hp hcs] at hsl
    exact ((h.dirs p hp hd).2.2.2.2.2 sl hsl (by rw [hn]; rfl)).2

/-- A listed reference with a nonzero first cluster has its chain in the list. -/
theorem chained {p : Option Slot × List Nat} (hp : p ∈ l) (hin : InRange g (first g d p.1)) :
    ClusChain g d (first g d p.1) p.2 := by
  cases hd : isDir d p.1 with
  | true => exact clusChain_of_chainOk (h.dirs p hp hd).1
  | false =>
    rcases h.files p hp hd with hf | ⟨h0, -⟩
    · exact clusChain_of_chainOk hf.1
    · cases hp1 : p.1 with
      | none =>
        rw [hp1] at hd
        exact absurd hd (by simp [isDir])
      | some sl =>
        have hin' := hin.1
        rw [hp1, first, (h0 sl hp1).1] at hin'
        omega

omit h in
theorem inRange {p : Option Slot × List Nat} (hc : chainOk g d (first g d p.1) p.2 = true)
    (hne : p.2 ≠ []) : InRange g (first g d p.1) := by
  have hch := clusChain_of_chainOk hc
  cases hp : p.2 with
  | nil => exact absurd hp hne
  | cons x xs =>
    rw [hp] at hch
    rw [hch.1.1]
    exact hch.2 x (by simp)

theorem tree : Tree g d := by
  obtain ⟨total, hdrive, htotal⟩ := h.size
  refine ⟨h.geo, fun l _ hl => ?_, fun l hl => ?_, fun r hr hd => ?_, fun sl hr hd => ?_,
    fun r hr hin => ?_,
    fun r cs hr hd hcs => ?_, fun r cs hr hd hcs => ?_, fun sl hr => ?_,
    fun r a b hr ha hb hab => ?_, fun r r' cs cs' hr hr' hne hcs hcs' => ?_⟩
  · have hlt : l < total := Nat.lt_of_lt_of_le hl htotal
    rw [hdrive]
    exact ⟨decide_eq_true hlt, decide_eq_true hlt⟩
  · rw [hdrive] at hl ⊢
    exact hl
  · obtain ⟨p, hp, rfl⟩ := List.mem_map.mp (h.ref hr)
    exact inRange (h.dirs p hp hd).1 (h.dirs p hp hd).2.1
  · obtain ⟨p, hp, he⟩ := List.mem_map.mp (h.ref hr)
    rw [← he] at hd
    rcases h.files p hp hd with hf | ⟨h0, -⟩
    · have hin := inRange hf.1 hf.2.1
      rw [he] at hin
      exact Or.inl hin
    · exact Or.inr (h0 sl he)
  · obtain ⟨p, hp, rfl⟩ := List.mem_map.mp (h.ref hr)
    exact ⟨p.2, h.chained hp hin⟩
  · obtain ⟨p, hp, rfl⟩ := List.mem_map.mp (h.ref hr)
    rw [h.chain hp hcs]
    exact (h.dirs p hp hd).2.2.1
  · obtain ⟨p, hp, rfl⟩ := List.mem_map.mp (h.ref hr)
    rw [h.chain hp hcs]
    exact (h.dirs p hp hd).2.2.2.1
  · obtain ⟨r, cs, hr', hd, hcs, hsl, nm, hn⟩ := hr.owned_slot
    obtain ⟨p, hp, rfl⟩ := List.mem_map.mp (h.ref hr')
    rw [h.chain hp hcs] at hsl
    exact validName_of_nameOk ((h.dirs p hp hd).2.2.2.2.2 sl hsl (by rw [hn]; rfl)).1
  · obtain ⟨p, hp, rfl⟩ := List.mem_map.mp (h.ref hr)
    obtain ⟨hd, cs, hcs, hsl, nm, hn⟩ := ha
    obtain ⟨-, cs', hcs', hsl', nm', hn'⟩ := hb
    rw [h.chain hp hcs] at hsl
    rw [h.chain hp hcs'] at hsl'
    exact (h.dirs p hp hd).2.2.2.2.1 a hsl b hsl' (by rw [hn]; rfl) (by rw [hn']; rfl) hab
  · obtain ⟨p, hp, rfl⟩ := List.mem_map.mp (h.ref hr)
    obtain ⟨q, hq, rfl⟩ := List.mem_map.mp (h.ref hr')
    rw [h.chain hp hcs, h.chain hq hcs']
    exact fun x hx hx' => h.disj p hp q hq hne x hx hx'

/-- **A certified volume is well-formed.** -/
theorem wellFormed : WellFormed g d := by
  refine ⟨h.tree, h.copies, fun sl cs hr hd hcs => ?_⟩
  obtain ⟨p, hp, he⟩ := List.mem_map.mp (h.ref hr)
  have hcs' : ClusChain g d (first g d p.1) cs := by rw [he]; exact hcs
  rw [← he] at hd
  rcases h.files p hp hd with ⟨-, -, hsize⟩ | ⟨h0, -⟩
  · rw [h.chain hp hcs']
    exact hsize sl he
  · rw [(h0 sl he).2]
    exact Nat.zero_le _

end Certified

/-! ## A sample volume -/

/-- The boot sector of a volume with one sector per cluster, as `fat_mount` reads it. -/
def bootSector (reserved fats fatSz rootClus : Nat) : Sector :=
  let s := wr16 (fun _ => 0) 11 512
  let s := setByte s 13 1
  let s := wr16 s 14 reserved
  let s := setByte s 16 (UInt8.ofNat fats)
  let s := wr32 (wr32 s 36 fatSz) 44 rootClus
  setByte (setByte s 510 0x55) 511 0xAA

/-- A table sector in which the listed clusters are chains of their own. -/
def fatSector (cs : List Nat) : Sector :=
  cs.foldl (fun s c => wr32 s (c * 4) 0x0FFFFFFF) (fun _ => 0)

/-- The padded name of a single letter. -/
def letter (c : UInt8) : Str := pad 8 [c] ++ pad 3 []

/-- Two tables of one sector, the root in cluster 2, `/A` in 3 and `/A/F` in 4. -/
def sampleDisk : Disk where
  drive := Drive.ofSize 140
  data := fun l =>
    if l = 1 then bootSector 1 2 1 2
    else if l = 2 ∨ l = 3 then fatSector [2, 3, 4]
    else if l = 4 then fillEntry (fun _ => 0) 0 (letter 65) 0x10 3 0
    else if l = 5 then fillEntry (fun _ => 0) 0 (letter 70) 0x20 4 3
    else if l = 6 then fun i => [111, 108, 100].getD i 0
    else fun _ => 0
  log := []

/-- The sample mounted, with `/A` as the current directory. -/
def sampleVol : Vol where
  fatStart := 2
  dataStart := 4
  secPerClus := 1
  numFats := 2
  fatSz := 1
  rootClus := 2
  disk := sampleDisk
  sec := fun _ => 0
  cwdClus := 3
  cwdPath := [slash, 65]
  isMounted := true
  allocHint := 2

theorem sampleVol_certified : Certified sampleVol.toGeo sampleVol.disk
    [(none, [2]), (some (4, 0), [3]), (some (5, 0), [4])] where
  geo := ⟨by decide, by decide, by decide, by decide, by decide⟩
  size := ⟨140, rfl, by decide⟩
  root := by decide +kernel
  dirs := by
    intro p hp hd
    simp only [List.mem_cons, List.not_mem_nil, or_false] at hp
    rcases hp with rfl | rfl | rfl
    · refine ⟨by decide +kernel, by decide, by decide +kernel, by decide +kernel, by decide +kernel,
        by decide +kernel⟩
    · refine ⟨by decide +kernel, by decide, by decide +kernel, by decide +kernel, by decide +kernel,
        by decide +kernel⟩
    · exact absurd hd (by decide +kernel)
  files := by
    intro p hp hd
    simp only [List.mem_cons, List.not_mem_nil, or_false] at hp
    rcases hp with rfl | rfl | rfl
    · exact absurd hd (by decide +kernel)
    · exact absurd hd (by decide +kernel)
    · refine Or.inl ⟨by decide +kernel, by decide, fun sl hsl => ?_⟩
      obtain rfl : (5, 0) = sl := Option.some.inj hsl
      decide +kernel
  disj := by decide +kernel
  copies := by unfold Copies; decide +kernel

end InaneOS.Fat
