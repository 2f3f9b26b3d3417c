import InaneOS.Fat.Write
import InaneOS.Lib.Chain

/-!
# Where things lie on the disk, and what a write leaves alone

A volume is its table copies followed by its data clusters. `fatEntry g d k c`
is entry `c` of copy `k`, `link` the successor the driver reads (copy 0, masked
to 28 bits), and `SameOff g A B d d'` says that disk `d'` differs from `d` at
most in the table entries of the clusters in `A` (on any copy) and in the
sectors of the clusters in `B`. Positions of different clusters do not meet
(`SameOff.entry`, `SameOff.sector`): this is the whole frame argument for the
read-modify-write of sectors that many files share.
-/

namespace InaneOS.Fat

open InaneOS.Lib

/-! ## Geometry -/

/-- What `fat_mount` establishes, for a table below `2 ^ 21` sectors. -/
structure Geo.Ok (g : Geo) : Prop where
  spc_pos : 0 < g.secPerClus
  fats_pos : 0 < g.numFats
  fatSz_pos : 0 < g.fatSz
  fatSz_lt : g.fatSz < 2 ^ 21
  data_eq : g.dataStart = g.fatStart + g.numFats * g.fatSz

theorem fatMount_ok {part : Nat} {f f' : Vol} (h : fatMount part f = (true, f'))
    (hlt : f'.fatSz < 2 ^ 21) : f'.toGeo.Ok := by
  unfold fatMount at h
  split at h
  next => exact absurd h (by simp)
  next =>
    dsimp only at h
    split at h
    next => exact absurd h (by simp)
    next =>
      split at h
      next => exact absurd h (by simp)
      next hbpb =>
        obtain rfl := (Prod.mk.inj h).2
        simp only [not_or] at hbpb
        obtain ⟨-, hspc, hfats, hsz, -⟩ := hbpb
        exact ⟨Nat.pos_of_ne_zero hspc, Nat.pos_of_ne_zero hfats, Nat.pos_of_ne_zero hsz, hlt, rfl⟩

/-- The clusters the table has entries for. -/
def InRange (g : Geo) (c : Nat) : Prop := 2 ≤ c ∧ c < g.fatSz * 128

instance (g : Geo) (c : Nat) : Decidable (InRange g c) := inferInstanceAs (Decidable (_ ∧ _))

/-- The sector of copy `k` that holds entry `c`. -/
def fatLba (g : Geo) (k c : Nat) : Nat := g.fatStart + k * g.fatSz + c * 4 / 512

/-- Entry `c` of copy `k` of the table. -/
def fatEntry (g : Geo) (d : Disk) (k c : Nat) : Nat :=
  rd32 (d.data (fatLba g k c)) (c * 4 % 512)

/-- The successor of `c` as `fat_next` reads it. -/
def link (g : Geo) (d : Disk) (c : Nat) : Nat := fatEntry g d 0 c &&& 0x0FFFFFFF

/-- All copies of the table are equal. -/
def Copies (g : Geo) (d : Disk) : Prop :=
  ∀ k < g.numFats, ∀ c < g.fatSz * 128, fatEntry g d k c = fatEntry g d 0 c

/-- The table can be read and written. -/
def FatsOn (g : Geo) (d : Disk) : Prop :=
  ∀ l, g.fatStart ≤ l → l < g.dataStart → d.drive.Works l

theorem FatsOn.congr {g : Geo} {d d' : Disk} (h : FatsOn g d) (hd : d'.drive = d.drive) :
    FatsOn g d' := by
  intro l hlo hhi
  rw [hd]
  exact h l hlo hhi

variable {g : Geo}

theorem InRange.lt_eoc {c : Nat} (hg : g.Ok) (h : InRange g c) : c < eoc := by
  have h1 := hg.fatSz_lt
  have h2 := h.2
  unfold eoc
  omega

theorem clusLba_eq {c : Nat} (hg : g.Ok) (h : InRange g c) :
    clusLba c g = g.dataStart + (c - 2) * g.secPerClus := by
  have h1 := hg.fatSz_lt
  have h2 := h.2
  have h3 := h.1
  have hw : (2 ^ 32 - 2 + c) % 2 ^ 32 = c - 2 := by omega
  rw [clusLba, hw]

theorem fatLba_lt {k c : Nat} (hg : g.Ok) (hk : k < g.numFats) (hc : c < g.fatSz * 128) :
    fatLba g k c < g.dataStart := by
  have hmul : (k + 1) * g.fatSz ≤ g.numFats * g.fatSz := Nat.mul_le_mul_right _ hk
  rw [hg.data_eq, fatLba]
  rw [Nat.add_mul, Nat.one_mul] at hmul
  omega

theorem le_fatLba (g : Geo) (k c : Nat) : g.fatStart ≤ fatLba g k c := by
  unfold fatLba
  omega

/-- Every sector of the table works. -/
theorem FatsOn.works {d : Disk} (h : FatsOn g d) (hg : g.Ok) {k c : Nat} (hk : k < g.numFats)
    (hc : c < g.fatSz * 128) : d.drive.Works (fatLba g k c) :=
  h _ (le_fatLba g k c) (fatLba_lt hg hk hc)

/-- The link of an entry that holds `v`, for a cluster number or the end mark. -/
theorem link_of_entry {d : Disk} {c v : Nat} (h : fatEntry g d 0 c = v) (hv : v < 2 ^ 28) :
    link g d c = v := by
  rw [link, h, show (0x0FFFFFFF : Nat) = 2 ^ 28 - 1 from rfl, Nat.and_two_pow_sub_one_eq_mod,
    Nat.mod_eq_of_lt hv]

/-! ## Positions -/

/-- Byte `i` of sector `l` belongs to entry `c` of some copy. -/
def PosFat (g : Geo) (c l i : Nat) : Prop :=
  ∃ k < g.numFats, l = fatLba g k c ∧ c * 4 % 512 ≤ i ∧ i < c * 4 % 512 + 4

/-- Sector `l` belongs to cluster `c`. -/
def PosData (g : Geo) (c l : Nat) : Prop :=
  clusLba c g ≤ l ∧ l < clusLba c g + g.secPerClus

theorem posData_ge {c l : Nat} (hg : g.Ok) (hc : InRange g c) (h : PosData g c l) :
    g.dataStart ≤ l := by
  have h1 := h.1
  rw [clusLba_eq hg hc] at h1
  omega

/-- Two clusters share no sector. -/
theorem posData_inj {c c' l : Nat} (hg : g.Ok) (hc : InRange g c) (hc' : InRange g c')
    (h : PosData g c l) (h' : PosData g c' l) : c = c' := by
  obtain ⟨h1, h2⟩ := h
  obtain ⟨h3, h4⟩ := h'
  rw [clusLba_eq hg hc] at h1 h2
  rw [clusLba_eq hg hc'] at h3 h4
  have hq : ∀ {x : Nat}, g.dataStart + x * g.secPerClus ≤ l →
      l < g.dataStart + x * g.secPerClus + g.secPerClus → x = (l - g.dataStart) / g.secPerClus := by
    intro x hlo hhi
    refine (Nat.div_eq_of_lt_le ?_ ?_).symm
    · omega
    · rw [Nat.add_mul, Nat.one_mul]
      omega
  have e1 := hq h1 h2
  have e2 := hq h3 h4
  have := hc.1
  have := hc'.1
  omega

/-- Two entries share no byte, on the same copy or on different ones. -/
theorem posFat_inj {k c c' i : Nat} (hc : c < g.fatSz * 128) (hc' : c' < g.fatSz * 128)
    (hi : c * 4 % 512 ≤ i) (hi' : i < c * 4 % 512 + 4) (h : PosFat g c' (fatLba g k c) i) :
    c = c' := by
  obtain ⟨k', hk', hl, h1, h2⟩ := h
  unfold fatLba at hl
  have hq : k * g.fatSz + c / 128 = k' * g.fatSz + c' / 128 := by omega
  have hkk : k = k' := by
    have hdiv : ∀ {x y : Nat}, y < g.fatSz → (x * g.fatSz + y) / g.fatSz = x := by
      intro x y hy
      rw [Nat.mul_comm, Nat.mul_add_div (by omega), Nat.div_eq_of_lt hy, Nat.add_zero]
    rw [← hdiv (x := k) (y := c / 128) (by omega), hq, hdiv (by omega)]
  subst hkk
  omega

/-- Distinct copies keep an entry in distinct sectors. -/
theorem fatLba_ne {j k c : Nat} (hc : c < g.fatSz * 128) (h : j ≠ k) :
    fatLba g j c ≠ fatLba g k c := by
  have hpos : 0 < g.fatSz := by omega
  intro he
  unfold fatLba at he
  exact h (Nat.eq_of_mul_eq_mul_right hpos (by omega))

/-! ## The frame -/

/-- `d'` is `d` but for table entries of `A` and sectors of `B`. -/
structure SameOff (g : Geo) (A B : Nat → Prop) (d d' : Disk) : Prop where
  drive : d'.drive = d.drive
  data : ∀ l i, (∀ c, InRange g c → A c → ¬ PosFat g c l i) →
    (∀ c, InRange g c → B c → ¬ PosData g c l) → d'.data l i = d.data l i

variable {A B : Nat → Prop} {d d' d'' : Disk}

theorem SameOff.refl (g : Geo) (A B : Nat → Prop) (d : Disk) : SameOff g A B d d :=
  ⟨rfl, fun _ _ _ _ => rfl⟩

theorem SameOff.trans (h : SameOff g A B d d') (h' : SameOff g A B d' d'') :
    SameOff g A B d d'' :=
  ⟨h'.drive.trans h.drive, fun l i hA hB => (h'.data l i hA hB).trans (h.data l i hA hB)⟩

theorem SameOff.mono {A' B' : Nat → Prop} (h : SameOff g A B d d')
    (hA : ∀ c, InRange g c → A c → A' c) (hB : ∀ c, InRange g c → B c → B' c) :
    SameOff g A' B' d d' :=
  ⟨h.drive, fun l i h1 h2 => h.data l i (fun c hc ha => h1 c hc (hA c hc ha))
    (fun c hc hb => h2 c hc (hB c hc hb))⟩

/-- Entries outside `A` are unchanged, on every copy. -/
theorem SameOff.entry (h : SameOff g A B d d') (hg : g.Ok) {k c : Nat} (hk : k < g.numFats)
    (hc : c < g.fatSz * 128) (hA : InRange g c → ¬ A c) :
    fatEntry g d' k c = fatEntry g d k c := by
  refine rd32_congr fun i hi hi' => h.data _ _ (fun c' hc' ha hp => ?_) (fun c' hc' _ hp => ?_)
  · have heq := posFat_inj hc hc'.2 hi hi' hp
    exact hA (heq ▸ hc') (heq ▸ ha)
  · have h1 := posData_ge hg hc' hp
    have h2 := fatLba_lt hg hk hc
    omega

theorem SameOff.link (h : SameOff g A B d d') (hg : g.Ok) {c : Nat} (hc : c < g.fatSz * 128)
    (hA : InRange g c → ¬ A c) : link g d' c = link g d c := by
  unfold Fat.link
  rw [h.entry hg hg.fats_pos hc hA]

/-- Sectors of clusters outside `B` are unchanged. -/
theorem SameOff.sector (h : SameOff g A B d d') (hg : g.Ok) {c l : Nat} (hc : InRange g c)
    (hB : ¬ B c) (hl : PosData g c l) : d'.data l = d.data l := by
  funext i
  refine h.data l i (fun c' hc' _ hp => ?_) (fun c' hc' hb hp => ?_)
  · obtain ⟨k, hk, rfl, -⟩ := hp
    have h1 := fatLba_lt hg hk hc'.2
    have h2 := posData_ge hg hc hl
    omega
  · exact hB (posData_inj hg hc hc' hl hp ▸ hb)

/-- A call that writes to the table alone changes nothing outside it. -/
theorem SameOff.outside (h : SameOff g A (fun _ => False) d d') (hg : g.Ok) {l : Nat}
    (hl : l < g.fatStart ∨ g.dataStart ≤ l) : d'.data l = d.data l := by
  funext i
  refine h.data l i (fun c hc _ hp => ?_) (fun _ _ hb _ => hb)
  obtain ⟨k, hk, rfl, -⟩ := hp
  have hlo := le_fatLba g k c
  have hhi := fatLba_lt hg hk hc.2
  omega

/-! ## The sectors a well-behaved write may name -/

/-- The table and the clusters it has entries for. -/
def Inside (g : Geo) (l : Nat) : Prop :=
  g.fatStart ≤ l ∧ l < g.dataStart + (g.fatSz * 128 - 2) * g.secPerClus

theorem inside_fatLba {k c : Nat} (hg : g.Ok) (hk : k < g.numFats) (hc : c < g.fatSz * 128) :
    Inside g (fatLba g k c) :=
  ⟨le_fatLba g k c, Nat.lt_of_lt_of_le (fatLba_lt hg hk hc) (Nat.le_add_right _ _)⟩

theorem inside_posData {c l : Nat} (hg : g.Ok) (hc : InRange g c) (hl : PosData g c l) :
    Inside g l := by
  have h1 := posData_ge hg hc hl
  have h2 := hg.data_eq
  have h3 := hl.2
  rw [clusLba_eq hg hc] at h3
  have hmul : (c - 2 + 1) * g.secPerClus ≤ (g.fatSz * 128 - 2) * g.secPerClus :=
    Nat.mul_le_mul_right _ (by have := hc.1; have := hc.2; omega)
  rw [Nat.add_mul, Nat.one_mul] at hmul
  exact ⟨by omega, by omega⟩

end InaneOS.Fat
