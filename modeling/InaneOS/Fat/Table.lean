import InaneOS.Fat.Layout
import InaneOS.Lib.Clear

/-!
# The allocation table: `fat_next`, `fat_set`, `alloc_clus`, `free_chain`

One specification for each call, under two assumptions that every later proof
carries along: the geometry (`Geom`) and that the table lies on the disk
(`FatsOn`). Each says which writes were issued (`Ran`), that at every cut of
them the disk is the old one outside the entries concerned (`Always` over
`SameOff`), and what the entries hold at the end.
-/

namespace InaneOS.Fat

open InaneOS.Lib

/-! ## Runs -/

/-- The call took `f` to `f'` by the writes `ws`; besides the disk only the
sector buffer and the allocation hint may differ. -/
def Ran (f f' : Vol) (ws : List (Nat × Sector)) : Prop :=
  ∃ s h, f' = { f with disk := f.disk.crash ws, sec := s, allocHint := h }

theorem Ran.sec (f : Vol) (s : Sector) : Ran f { f with sec := s } [] :=
  ⟨s, f.allocHint, rfl⟩

/-- What the buffer held before a call does not matter. -/
theorem Ran.ofSec {f f' : Vol} {s : Sector} {ws : List (Nat × Sector)}
    (h : Ran { f with sec := s } f' ws) : Ran f f' ws := by
  obtain ⟨t, n, rfl⟩ := h
  exact ⟨t, n, rfl⟩

theorem Ran.trans {f f₁ f₂ : Vol} {ws vs : List (Nat × Sector)} (h : Ran f f₁ ws)
    (h' : Ran f₁ f₂ vs) : Ran f f₂ (ws ++ vs) := by
  obtain ⟨s, n, rfl⟩ := h
  obtain ⟨s', n', rfl⟩ := h'
  exact ⟨s', n', by rw [Disk.crash_append]⟩

theorem Ran.disk {f f' : Vol} {ws : List (Nat × Sector)} (h : Ran f f' ws) :
    f'.disk = f.disk.crash ws := by
  obtain ⟨s, n, rfl⟩ := h
  rfl

theorem Ran.geo {f f' : Vol} {ws : List (Nat × Sector)} (h : Ran f f' ws) :
    f'.toGeo = f.toGeo := by
  obtain ⟨s, n, rfl⟩ := h
  rfl

theorem Ran.cwdPath {f f' : Vol} {ws : List (Nat × Sector)} (h : Ran f f' ws) :
    f'.cwdPath = f.cwdPath := by
  obtain ⟨s, n, rfl⟩ := h
  rfl

theorem FatsOn.crash {g : Geo} {d : Disk} (h : FatsOn g d) (ws : List (Nat × Sector)) :
    FatsOn g (d.crash ws) := by
  exact h.congr (Disk.crash_drive ws d)

/-! ## Single transfers -/

theorem ideRead_works {l : Nat} {f : Vol} (h : f.disk.drive.reads l = true) :
    ideRead l f = some { f with sec := f.disk.data l } := if_pos h

theorem ideRead_fails {l : Nat} {f : Vol} (h : f.disk.drive.reads l = false) :
    ideRead l f = none := by
  unfold ideRead
  rw [h]
  rfl

theorem fatNext_eq {c : Nat} {f : Vol} (hg : f.toGeo.Ok) (ho : FatsOn f.toGeo f.disk)
    (hc : c < f.fatSz * 128) : fatNext c f =
      (link f.toGeo f.disk c, { f with sec := f.disk.data (fatLba f.toGeo 0 c) }) := by
  have hl : f.fatStart + c * 4 / 512 = fatLba f.toGeo 0 c := by
    unfold fatLba
    omega
  have hlt : f.disk.drive.Works (fatLba f.toGeo 0 c) :=
    ho.works hg hg.fats_pos hc
  unfold fatNext
  simp only [hl, ideRead_works hlt.1]
  rfl

/-! ## `fat_set` -/

/-- The disk after one round of `fat_set`. -/
def setCopy (g : Geo) (d : Disk) (c v k : Nat) : Disk :=
  d.put (fatLba g k c, wr32 (d.data (fatLba g k c)) (c * 4 % 512) v)

section SetCopy

variable {g : Geo} {d : Disk} {c v k j : Nat}

theorem setCopy_sameOff (hk : k < g.numFats) (hc : InRange g c) :
    SameOff g (· = c) (fun _ => False) d (setCopy g d c v k) := by
  refine ⟨rfl, fun l i hA _ => ?_⟩
  unfold setCopy
  rw [Disk.put_data]
  split
  next hl =>
    obtain ⟨rfl, -⟩ := hl
    rw [wr32_eq]
    refine putLE_other _ _ _ _ ?_
    by_contra hcon
    exact hA c hc rfl ⟨k, hk, rfl, by omega, by omega⟩
  next => rfl

theorem setCopy_entry (hg : g.Ok) (ho : FatsOn g d) (hk : k < g.numFats)
    (hc : c < g.fatSz * 128) (hv : v < 2 ^ 32) : fatEntry g (setCopy g d c v k) k c = v := by
  have hlt : d.drive.Works (fatLba g k c) := ho.works hg hk hc
  unfold fatEntry setCopy
  rw [Disk.put_data_same _ hlt.2, rd32_wr32 _ _ hv]

theorem setCopy_entry_ne (hc : c < g.fatSz * 128) (h : j ≠ k) :
    fatEntry g (setCopy g d c v k) j c = fatEntry g d j c := by
  unfold fatEntry setCopy
  rw [Disk.put_data_ne _ (fatLba_ne hc h)]

end SetCopy

/-- At a cut inside `fat_set(c, v)`: nothing but entry `c` differs, and copy 0
of it is still the old one or already `v`. -/
def SetCut (g : Geo) (c v : Nat) (d d' : Disk) : Prop :=
  SameOff g (· = c) (fun _ => False) d d' ∧
    (fatEntry g d' 0 c = fatEntry g d 0 c ∨ fatEntry g d' 0 c = v)

/-- What `fat_set(c, v)` does. -/
structure SetDone (f : Vol) (c v : Nat) (f' : Vol) (ws : List (Nat × Sector)) : Prop where
  ran : Ran f f' ws
  inside : ∀ w ∈ ws, Inside f.toGeo w.1
  cuts : Always Disk.put (SetCut f.toGeo c v f.disk) f.disk ws
  entry : ∀ k < f.numFats, fatEntry f.toGeo f'.disk k c = v

theorem fatSetLoop_spec {c v : Nat} (hv : v < 2 ^ 32) : ∀ (n k : Nat) (f : Vol), f.toGeo.Ok →
    FatsOn f.toGeo f.disk → InRange f.toGeo c → k + n = f.numFats →
    ∃ f' ws, fatSetLoop c v n k f = (true, f') ∧ Ran f f' ws ∧
      (∀ w ∈ ws, Inside f.toGeo w.1) ∧
      Always Disk.put (SetCut f.toGeo c v f.disk) f.disk ws ∧
      ∀ j < f.numFats, fatEntry f.toGeo f'.disk j c =
        if k ≤ j then v else fatEntry f.toGeo f.disk j c
  | 0, k, f, _, _, _, hk => by
    refine ⟨f, [], rfl, Ran.sec f f.sec, by simp, ⟨SameOff.refl .., Or.inl rfl⟩, fun j hj => ?_⟩
    rw [if_neg (by omega)]
  | n + 1, k, f, hg, ho, hc, hk => by
    have hkf : k < f.numFats := by omega
    have hlt : f.disk.drive.Works (fatLba f.toGeo k c) :=
      ho.works hg hkf hc.2
    -- one copy, then the rest from the disk it leaves
    let f₁ : Vol := { f with
      sec := wr32 (f.disk.data (fatLba f.toGeo k c)) (c * 4 % 512) v
      disk := setCopy f.toGeo f.disk c v k }
    obtain ⟨f', vs, hrun, hran, hin, hcut, hent⟩ :=
      fatSetLoop_spec hv n (k + 1) f₁ hg ho hc (by show k + 1 + n = f.numFats; omega)
    have hoff := setCopy_sameOff (d := f.disk) (v := v) hkf hc
    have hent₁ : ∀ j, fatEntry f.toGeo f₁.disk j c =
        if j = k then v else fatEntry f.toGeo f.disk j c := by
      intro j
      by_cases hj : j = k
      · rw [if_pos hj, hj]
        exact setCopy_entry hg ho hkf hc.2 hv
      · rw [if_neg hj]
        exact setCopy_entry_ne hc.2 hj
    refine ⟨f', (fatLba f.toGeo k c, f₁.sec) :: vs, ?_, ?_, ?_,
      ⟨⟨SameOff.refl .., Or.inl rfl⟩, ?_⟩, ?_⟩
    · have hl : f.fatStart + k * f.fatSz + c * 4 / 512 = fatLba f.toGeo k c := rfl
      simp only [fatSetLoop, hl, ideRead_works hlt.1, ideWrite, hlt.2]
      exact hrun
    · obtain ⟨s, h, rfl⟩ := hran
      exact ⟨s, h, rfl⟩
    · intro w hw
      rcases List.mem_cons.mp hw with rfl | hw
      · exact inside_fatLba hg hkf hc.2
      · exact hin w hw
    · refine Always.imp (fun d hd => ⟨hoff.trans hd.1, ?_⟩) hcut
      rcases hd.2 with h | h
      · have h0 := hent₁ 0
        rw [← h] at h0
        by_cases h0k : 0 = k
        · rw [if_pos h0k] at h0
          exact Or.inr h0
        · rw [if_neg h0k] at h0
          exact Or.inl h0
      · exact Or.inr h
    · intro j hj
      rw [hent j hj, hent₁ j]
      by_cases hjk : j = k
      · rw [if_neg (by omega), if_pos hjk, if_pos (by omega)]
      · rw [if_neg hjk]
        by_cases hkj : k + 1 ≤ j
        · rw [if_pos hkj, if_pos (by omega)]
        · rw [if_neg hkj, if_neg (by omega)]

/-- `fat_set` succeeds and sets the entry on all copies. -/
theorem fatSet_spec {c v : Nat} {f : Vol} (hg : f.toGeo.Ok) (ho : FatsOn f.toGeo f.disk)
    (hc : InRange f.toGeo c) (hv : v < 2 ^ 32) :
    ∃ f' ws, fatSet c v f = (true, f') ∧ SetDone f c v f' ws := by
  obtain ⟨f', ws, hrun, hran, hin, hcut, hent⟩ :=
    fatSetLoop_spec hv f.numFats 0 f hg ho hc (Nat.zero_add _)
  refine ⟨f', ws, hrun, hran, hin, hcut, fun k hk => ?_⟩
  rw [hent k hk, if_pos (Nat.zero_le k)]

theorem SetDone.ofSec {f f' : Vol} {c v : Nat} {s : Sector} {ws : List (Nat × Sector)}
    (h : SetDone { f with sec := s } c v f' ws) : SetDone f c v f' ws :=
  ⟨h.ran.ofSec, h.inside, h.cuts, h.entry⟩

theorem SetDone.sameOff {f f' : Vol} {c v : Nat} {ws : List (Nat × Sector)}
    (h : SetDone f c v f' ws) : SameOff f.toGeo (· = c) (fun _ => False) f.disk f'.disk := by
  rw [h.ran.disk]
  exact h.cuts.final.1

/-- Setting an entry on all copies keeps the copies equal. -/
theorem SetDone.copies {f f' : Vol} {c v : Nat} {ws : List (Nat × Sector)}
    (h : SetDone f c v f' ws) (hg : f.toGeo.Ok) (hcp : Copies f.toGeo f.disk) :
    Copies f.toGeo f'.disk := by
  intro k hk a ha
  by_cases hac : a = c
  · rw [hac, h.entry k hk, h.entry 0 hg.fats_pos]
  · rw [h.sameOff.entry hg hk ha fun _ => hac, h.sameOff.entry hg hg.fats_pos ha fun _ => hac]
    exact hcp k hk a ha

/-! ## `alloc_clus` -/

/-- The end mark `alloc_clus` stores. -/
def lastMark : Nat := 0x0FFFFFFF

/-- The cluster that round `i` of the search looks at. -/
def probe (g : Geo) (hint i : Nat) : Nat := 2 + (hint + i) % 2 ^ 32 % (g.fatSz * 128 - 2)

theorem probe_inRange {g : Geo} (hg : g.Ok) (hint i : Nat) : InRange g (probe g hint i) := by
  have hpos := hg.fatSz_pos
  have hmod := Nat.mod_lt ((hint + i) % 2 ^ 32) (show 0 < g.fatSz * 128 - 2 by omega)
  unfold probe
  exact ⟨by omega, by omega⟩

/-- The search takes the first free cluster that it looks at, and remembers it. -/
theorem allocLoop_spec : ∀ (n i : Nat) (f : Vol), f.toGeo.Ok → FatsOn f.toGeo f.disk →
    (((List.range' i n).map (probe f.toGeo f.allocHint)).find?
      (fun c => fatEntry f.toGeo f.disk 0 c = 0) = none ∧
      ∃ s, allocLoop (f.fatSz * 128) n i f = (0, { f with sec := s })) ∨
    ∃ c f' ws,
      ((List.range' i n).map (probe f.toGeo f.allocHint)).find?
        (fun c => fatEntry f.toGeo f.disk 0 c = 0) = some c ∧
      allocLoop (f.fatSz * 128) n i f = (c, f') ∧ InRange f.toGeo c ∧
      fatEntry f.toGeo f.disk 0 c = 0 ∧ SetDone f c lastMark f' ws ∧ f'.allocHint = c
  | 0, _, f, _, _ => Or.inl ⟨rfl, f.sec, rfl⟩
  | n + 1, i, f, hg, ho => by
    have hmax : f.fatSz * 128 - 2 > 0 := by have := hg.fatSz_pos; omega
    have hr := probe_inRange hg f.allocHint i
    rw [List.range'_succ, List.map_cons, List.find?_cons]
    simp only [allocLoop, if_pos hmax]
    rw [show 2 + (f.allocHint + i) % 2 ^ 32 % (f.fatSz * 128 - 2) =
      probe f.toGeo f.allocHint i from rfl]
    generalize probe f.toGeo f.allocHint i = c at hr
    have hl : f.fatStart + c * 4 / 512 = fatLba f.toGeo 0 c := by
      unfold fatLba
      omega
    have hlt : f.disk.drive.Works (fatLba f.toGeo 0 c) :=
      ho.works hg hg.fats_pos hr.2
    rw [if_neg (Nat.not_le.mpr hr.2)]
    simp only [hl, ideRead_works hlt.1]
    rw [show rd32 (f.disk.data (fatLba f.toGeo 0 c)) (c * 4 % 512) =
      fatEntry f.toGeo f.disk 0 c from rfl]
    by_cases h0 : fatEntry f.toGeo f.disk 0 c = 0
    · rw [if_pos h0, decide_eq_true h0]
      obtain ⟨f', ws, hset, hdone⟩ := fatSet_spec (v := lastMark)
        (f := { f with sec := f.disk.data (fatLba f.toGeo 0 c) }) hg ho hr (by decide)
      have hset' : fatSet c 0x0FFFFFFF { f with sec := f.disk.data (fatLba f.toGeo 0 c) }
          = (true, f') := hset
      right
      refine ⟨c, { f' with allocHint := c }, ws, rfl, by rw [hset'], hr, h0, ?_, rfl⟩
      obtain ⟨s, h, rfl⟩ := hdone.ran
      exact ⟨⟨s, c, rfl⟩, hdone.inside, hdone.cuts, hdone.entry⟩
    · rw [if_neg h0, decide_eq_false h0]
      rcases allocLoop_spec n (i + 1) { f with sec := f.disk.data (fatLba f.toGeo 0 c) } hg ho with
        h | ⟨c', f', ws, hfind, hrun, hr', h0, hdone, hhint⟩
      · exact Or.inl h
      · exact Or.inr ⟨c', f', ws, hfind, hrun, hr', h0, hdone.ofSec, hhint⟩

/-- What `alloc_clus` finds: the first free cluster of its round. -/
theorem allocClus_probe {f : Vol} (hg : f.toGeo.Ok) (ho : FatsOn f.toGeo f.disk) :
    (((List.range (f.fatSz * 128)).map (probe f.toGeo f.allocHint)).find?
        (fun c => fatEntry f.toGeo f.disk 0 c = 0) = none ∧
          ∃ s, allocClus f = (0, { f with sec := s })) ∨
    ∃ c f' ws, ((List.range (f.fatSz * 128)).map (probe f.toGeo f.allocHint)).find?
        (fun c => fatEntry f.toGeo f.disk 0 c = 0) = some c ∧
      allocClus f = (c, f') ∧ InRange f.toGeo c ∧
      fatEntry f.toGeo f.disk 0 c = 0 ∧ SetDone f c lastMark f' ws ∧ f'.allocHint = c := by
  have hmax : fatMax f = f.fatSz * 128 := by
    have := hg.fatSz_lt
    unfold fatMax
    omega
  unfold allocClus
  rw [hmax, List.range_eq_range']
  exact allocLoop_spec _ _ f hg ho

/-- `alloc_clus` changes nothing, or it marks a free cluster as a chain's end. -/
theorem allocClus_spec {f : Vol} (hg : f.toGeo.Ok) (ho : FatsOn f.toGeo f.disk) :
    (∃ s, allocClus f = (0, { f with sec := s })) ∨
    ∃ c f' ws, allocClus f = (c, f') ∧ InRange f.toGeo c ∧
      fatEntry f.toGeo f.disk 0 c = 0 ∧ SetDone f c lastMark f' ws := by
  rcases allocClus_probe hg ho with ⟨-, h⟩ | ⟨c, f', ws, -, hrun, hr, hz, hd, -⟩
  · exact Or.inl h
  · exact Or.inr ⟨c, f', ws, hrun, hr, hz, hd⟩

/-! ## Chains and `free_chain` -/

/-- The clusters from `c` to the end mark, all of them in the table. -/
def ClusChain (g : Geo) (d : Disk) (c : Nat) (cs : List Nat) : Prop :=
  Chain (link g d) (eoc ≤ ·) c cs ∧ ∀ x ∈ cs, InRange g x

theorem ClusChain.unique {g : Geo} {d : Disk} {c : Nat} {cs cs' : List Nat}
    (h : ClusChain g d c cs) (h' : ClusChain g d c cs') : cs = cs' := h.1.unique h'.1

/-- A chain none of whose entries is written stays a chain. -/
theorem ClusChain.sameOff {g : Geo} {A B : Nat → Prop} {d d' : Disk} {c : Nat} {cs : List Nat}
    (h : ClusChain g d c cs) (hg : g.Ok) (hs : SameOff g A B d d') (hA : ∀ x ∈ cs, ¬ A x) :
    ClusChain g d' c cs :=
  ⟨h.1.congr fun x hx => hs.link hg (h.2 x hx).2 fun _ => hA x hx, h.2⟩

/-- The clusters of a chain have nonzero entries. -/
theorem ClusChain.entry_ne {g : Geo} {d : Disk} : ∀ {cs : List Nat} {c x : Nat},
    ClusChain g d c cs → x ∈ cs → fatEntry g d 0 x ≠ 0
  | a :: cs, c, x, h, hx => by
    rcases List.mem_cons.mp hx with rfl | hx
    · intro h0
      have hl : link g d x = 0 := link_of_entry h0 (by decide)
      obtain ⟨-, -, hrest⟩ := h.1
      rw [hl] at hrest
      -- the link 0 is neither an end mark nor a cluster of the table
      cases cs with
      | nil => exact absurd hrest (by show ¬ eoc ≤ 0; decide)
      | cons b cs =>
        have hb := (h.2 b (by simp)).1
        rw [← hrest.1] at hb
        omega
    · exact ClusChain.entry_ne ⟨h.1.2.2, fun y hy => h.2 y (List.mem_cons_of_mem _ hy)⟩ hx

/-- What `free_chain` does to the chain `cs`. -/
structure FreeDone (f : Vol) (cs : List Nat) (f' : Vol) (ws : List (Nat × Sector)) : Prop where
  ran : Ran f f' ws
  inside : ∀ w ∈ ws, Inside f.toGeo w.1
  cuts : Always Disk.put (SameOff f.toGeo (· ∈ cs) (fun _ => False) f.disk) f.disk ws
  entry : ∀ c ∈ cs, ∀ k < f.numFats, fatEntry f.toGeo f'.disk k c = 0
  copies : Copies f.toGeo f.disk → Copies f.toGeo f'.disk

theorem FreeDone.nil (f : Vol) : FreeDone f [] f [] :=
  ⟨Ran.sec f f.sec, by simp, SameOff.refl .., by simp, id⟩

/-- A cluster, which may come up again, and what is freed behind it. -/
theorem FreeDone.cons {f f₁ f' : Vol} {c : Nat} {cs : List Nat} {ws₁ ws₂ : List (Nat × Sector)}
    (hg : f.toGeo.Ok) (hc : InRange f.toGeo c) (h₁ : SetDone f c 0 f₁ ws₁)
    (h₂ : FreeDone f₁ cs f' ws₂) : FreeDone f (c :: cs) f' (ws₁ ++ ws₂) := by
  have hgeo : f₁.toGeo = f.toGeo := h₁.ran.geo
  obtain ⟨hran₂, hin₂, hcut₂, hent₂, hcp₂⟩ := h₂
  rw [show f₁.numFats = f.numFats from congrArg Geo.numFats hgeo] at hent₂
  rw [hgeo] at hin₂ hcut₂ hent₂ hcp₂
  have hmono : ∀ d, SetCut f.toGeo c 0 f.disk d →
      SameOff f.toGeo (· ∈ c :: cs) (fun _ => False) f.disk d := fun d hd =>
    hd.1.mono (fun x _ hx => List.mem_cons.mpr (Or.inl hx)) (fun _ _ hx => hx)
  refine ⟨h₁.ran.trans hran₂, fun w hw => ?_, ?_, fun x hx k hk => ?_,
    fun hcp => hcp₂ (h₁.copies hg hcp)⟩
  · rcases List.mem_append.mp hw with hw | hw
    · exact h₁.inside w hw
    · exact hin₂ w hw
  · refine Always.append (Always.imp hmono h₁.cuts) ?_
    have hd₁ : f₁.disk = ws₁.foldl Disk.put f.disk := h₁.ran.disk
    rw [← hd₁]
    exact Always.imp (fun d hd => ((hmono _ (hd₁ ▸ h₁.cuts.final)).trans
      (hd.mono (fun x _ hx => List.mem_cons_of_mem _ hx) (fun _ _ hx => hx)))) hcut₂
  · by_cases hxcs : x ∈ cs
    · exact hent₂ x hxcs k hk
    · have hoff₂ : SameOff f.toGeo (· ∈ cs) (fun _ => False) f₁.disk f'.disk := by
        rw [hran₂.disk]
        exact hcut₂.final
      obtain rfl : x = c := (List.mem_cons.mp hx).resolve_right hxcs
      rw [hoff₂.entry hg hk hc.2 fun _ => hxcs]
      exact h₁.entry k hk

theorem freeChain_zero (fuel : Nat) (f : Vol) : freeChain (fuel + 1) 0 f = some f := rfl

/-- A cluster number that `free_chain` goes on from. -/
def IsLink (c : Nat) : Prop := 2 ≤ c ∧ c < eoc

instance : DecidablePred IsLink := fun c => inferInstanceAs (Decidable (2 ≤ c ∧ c < eoc))

theorem InRange.isLink {g : Geo} {c : Nat} (hg : g.Ok) (h : InRange g c) : IsLink c :=
  ⟨h.1, h.lt_eoc hg⟩

/-- `free_chain` clears the entries it passes, in a table that reads like `next` at these. -/
theorem freeChain_passed : ∀ {fuel c : Nat} {next : Nat → Nat} {cs : List Nat} {f : Vol},
    f.toGeo.Ok → FatsOn f.toGeo f.disk → passed 0 IsLink fuel c next = some cs →
    (∀ x ∈ cs, InRange f.toGeo x ∧ link f.toGeo f.disk x = next x) →
    ∃ f' ws, freeChain fuel c f = some f' ∧ FreeDone f cs f' ws
  | 0, _, _, _, _, _, _, hp, _ => absurd hp (by simp [passed])
  | fuel + 1, c, next, cs, f, hg, ho, hp, hcs => by
    rw [passed] at hp
    by_cases hc : IsLink c
    · rw [if_pos hc, Option.map_eq_some_iff] at hp
      obtain ⟨cs, hp, rfl⟩ := hp
      obtain ⟨hr, hnext⟩ := hcs c (by simp)
      obtain ⟨f₁, ws₁, hset, hdone⟩ := fatSet_spec (c := c) (v := 0)
        (f := { f with sec := f.disk.data (fatLba f.toGeo 0 c) }) hg ho hr (by decide)
      have hgeo : f₁.toGeo = f.toGeo := hdone.ran.geo
      have hoff : SameOff f.toGeo (· = c) (fun _ => False) f.disk f₁.disk := hdone.sameOff
      have ho₁ : FatsOn f.toGeo f₁.disk := by
        rw [hdone.ran.disk]
        exact ho.crash ws₁
      -- the entry of `c` reads 0 from here on, should the loop come back to it
      have hcs₁ : ∀ x ∈ cs, InRange f.toGeo x ∧
          link f.toGeo f₁.disk x = Function.update next c 0 x := by
        intro x hx
        obtain ⟨hxr, hxn⟩ := hcs x (List.mem_cons_of_mem _ hx)
        refine ⟨hxr, ?_⟩
        by_cases hxc : x = c
        · rw [hxc, Function.update_self]
          exact link_of_entry (hdone.entry 0 hg.fats_pos) (by decide)
        · rw [Function.update_of_ne hxc, ← hxn]
          exact hoff.link hg hxr.2 fun _ => hxc
      rw [← hgeo] at ho₁ hcs₁
      obtain ⟨f', ws₂, hfree, hrest⟩ := freeChain_passed (by rw [hgeo]; exact hg) ho₁ hp hcs₁
      refine ⟨f', ws₁ ++ ws₂, ?_, FreeDone.cons hg hr hdone.ofSec hrest⟩
      rw [freeChain, if_pos (show 2 ≤ c ∧ c < eoc from hc)]
      simp only [fatNext_eq hg ho hr.2]
      rw [hset, hnext]
      exact hfree
    · rw [if_neg hc] at hp
      obtain rfl := Option.some.inj hp
      exact ⟨f, [], if_neg hc, FreeDone.nil f⟩

/-- Freeing a chain sets exactly its entries to 0, first cluster first. -/
theorem freeChain_spec (cs : List Nat) (c fuel : Nat) (f : Vol) (hg : f.toGeo.Ok)
    (ho : FatsOn f.toGeo f.disk) (hch : ClusChain f.toGeo f.disk c cs) (hfuel : cs.length < fuel) :
    ∃ f' ws, freeChain fuel c f = some f' ∧ FreeDone f cs f' ws := by
  have hstop : ∀ x, eoc ≤ x → ¬ IsLink x := fun x hx hgo => Nat.not_lt.mpr hx hgo.2
  have hp := passed_chain hstop 0 cs hch.1 (fun x hx => (hch.2 x hx).isLink hg) hfuel
  exact freeChain_passed hg ho hp fun x hx => ⟨hch.2 x hx, rfl⟩

end InaneOS.Fat
