import InaneOS.Fat.Walk
import Mathlib.Data.List.GetD

/-!
# Reading a file: `fat_read`

`fat_read` goes through the sectors of the file's chain in order and copies them
until it has enough (`readSecs`, `fatRead_file`). What it returns depends on the
disk only through what a reader's `View` preserves, so two disks with the same
view give the same results (`fatRead_view`, `fatRead_same`); and a chain whose
sectors hold some bytes in order is read back as these bytes (`readSecs_holds`).
-/

namespace InaneOS.Fat

open InaneOS.Lib

/-! ## The sectors of a file -/

/-- Copy the sectors `ls` behind `out` until `cap` bytes are there; `false` is a
sector that could not be read. -/
def readSecs (d : Disk) (cap : Nat) : List Nat → Str → Bool × Str
  | [], out => (true, out)
  | l :: ls, out =>
    if out.length < cap then
      if d.drive.reads l then
        readSecs d cap ls (out ++ (List.range (min 512 (cap - out.length))).map (d.data l))
      else (false, out)
    else (true, out)

theorem readSecs_full {d : Disk} {cap : Nat} {ls : List Nat} {out : Str} (h : cap ≤ out.length) :
    readSecs d cap ls out = (true, out) := by
  cases ls with
  | nil => rfl
  | cons l ls => rw [readSecs, if_neg (Nat.not_lt.mpr h)]

theorem readSecs_append (d : Disk) (cap : Nat) : ∀ (ls ls' : List Nat) (out : Str),
    readSecs d cap (ls ++ ls') out =
      if (readSecs d cap ls out).1 then readSecs d cap ls' (readSecs d cap ls out).2
      else readSecs d cap ls out
  | [], ls', out => rfl
  | l :: ls, ls', out => by
    rw [List.cons_append, readSecs, readSecs]
    split
    · split
      · exact readSecs_append d cap ls ls' _
      · rfl
    next hfull =>
      rw [if_pos rfl, readSecs_full (Nat.not_lt.mp hfull)]

/-- What is read depends on the sectors read. -/
theorem readSecs_congr {d d' : Disk} {cap : Nat} (ht : d'.drive = d.drive) :
    ∀ {ls : List Nat} {out : Str}, (∀ l ∈ ls, d'.data l = d.data l) →
      readSecs d' cap ls out = readSecs d cap ls out
  | [], _, _ => rfl
  | l :: ls, out, h => by
    rw [readSecs, readSecs, h l (by simp), ht,
      readSecs_congr ht fun x hx => h x (List.mem_cons_of_mem _ hx)]

/-- The sectors `ls` exist and hold the bytes `buf` in order, zero-filled. -/
def Holds (d : Disk) : List Nat → Str → Prop
  | _, [] => True
  | [], _ :: _ => False
  | l :: ls, b :: bs =>
    d.drive.reads l ∧ (∀ i < 512, d.data l i = (b :: bs).getD i 0) ∧ Holds d ls ((b :: bs).drop 512)

theorem Holds.congr {d d' : Disk} (ht : d'.drive = d.drive) : ∀ {ls : List Nat} {buf : Str},
    (∀ l ∈ ls, d'.data l = d.data l) → Holds d ls buf → Holds d' ls buf
  | [], [], _, _ => trivial
  | _ :: _, [], _, _ => trivial
  | [], _ :: _, _, h => h.elim
  | l :: ls, b :: bs, hd, h => by
    refine ⟨by rw [ht]; exact h.1, ?_, h.2.2.congr ht fun x hx => hd x (List.mem_cons_of_mem _ hx)⟩
    rw [hd l (by simp)]
    exact h.2.1

/-- More sectors do no harm. -/
theorem Holds.mono {d : Disk} (ls' : List Nat) : ∀ {ls : List Nat} {a : Str}, Holds d ls a →
    Holds d (ls ++ ls') a
  | [], [], _ => by cases ls' <;> exact trivial
  | _ :: _, [], _ => trivial
  | [], _ :: _, h => h.elim
  | _ :: _, _ :: _, h => ⟨h.1, h.2.1, h.2.2.mono ls'⟩

/-- Sectors that are not needed may be left out. -/
theorem Holds.cut {d : Disk} {ls' : List Nat} : ∀ {ls : List Nat} {a : Str}, Holds d (ls ++ ls') a →
    a.length ≤ ls.length * 512 → Holds d ls a
  | [], [], _, _ => trivial
  | _ :: _, [], _, _ => trivial
  | [], _ :: _, _, hlen => by simp at hlen
  | l :: ls, x :: xs, h, hlen => by
    refine ⟨h.1, h.2.1, h.2.2.cut ?_⟩
    rw [List.length_drop]
    rw [List.length_cons (a := l)] at hlen
    omega

/-- Full sectors followed by others. -/
theorem Holds.append {d : Disk} {ls' : List Nat} {b : Str} : ∀ {ls : List Nat} {a : Str},
    Holds d ls a → a.length = ls.length * 512 → Holds d ls' b → Holds d (ls ++ ls') (a ++ b)
  | [], a, _, hlen, hb => by
    have ha : a = [] := List.length_eq_zero_iff.mp (by simpa using hlen)
    rw [ha]
    exact hb
  | l :: ls, [], _, hlen, _ => by
    simp only [List.length_nil, List.length_cons] at hlen
    omega
  | l :: ls, x :: xs, h, hlen, hb => by
    have h512 : 512 ≤ (x :: xs).length := by
      rw [hlen, List.length_cons]
      omega
    refine ⟨h.1, fun i hi => ?_, ?_⟩
    · rw [h.2.1 i hi]
      exact (List.getD_append _ _ _ _ (by omega)).symm
    · show Holds d (ls ++ ls') ((x :: xs ++ b).drop 512)
      rw [List.drop_append_of_le_length h512]
      refine Holds.append h.2.2 ?_ hb
      rw [List.length_drop, hlen, List.length_cons]
      omega

/-- **Sectors that hold `buf` are read as `buf`**, up to the room there is. -/
theorem readSecs_holds {d : Disk} {cap : Nat} : ∀ {ls : List Nat} {buf out : Str},
    Holds d ls buf → cap ≤ out.length + buf.length →
    readSecs d cap ls out = (true, out ++ buf.take (cap - out.length))
  | ls, [], out, _, hcap => by
    rw [readSecs_full (by simpa using hcap), List.take_nil, List.append_nil]
  | [], _ :: _, _, h, _ => h.elim
  | l :: ls, b :: bs, out, h, hcap => by
    rw [readSecs]
    split
    next hlt =>
      have hk : min 512 (cap - out.length) ≤ (b :: bs).length := by omega
      have hmap : (List.range (min 512 (cap - out.length))).map (d.data l)
          = (b :: bs).take (min 512 (cap - out.length)) := by
        rw [← take_eq_map_getD hk]
        refine List.map_congr_left fun i hi => h.2.1 i ?_
        have := List.mem_range.mp hi
        omega
      rw [if_pos h.1, hmap]
      rcases Nat.le_total 512 (cap - out.length) with hbig | hsmall
      · rw [Nat.min_eq_left hbig]
        have hlen : (out ++ (b :: bs).take 512).length = out.length + 512 := by
          rw [List.length_append, List.length_take]
          omega
        rw [readSecs_holds h.2.2 (by rw [hlen, List.length_drop]; omega), hlen, List.append_assoc]
        congr 2
        rw [show cap - out.length = 512 + (cap - (out.length + 512)) by omega, List.take_add]
      · rw [Nat.min_eq_right hsmall]
        refine readSecs_full ?_
        rw [List.length_append, List.length_take]
        omega
    next hfull =>
      rw [Nat.sub_eq_zero_of_le (Nat.not_lt.mp hfull), List.take_zero, List.append_nil]

/-! ## The two loops of `fat_read` -/

theorem readClus_spec (cap : Nat) : ∀ (n l : Nat) (out : Str) (f : Vol),
    ∃ s, readClus cap n l out f = ((readSecs f.disk cap (List.range' l n) out).1,
      (readSecs f.disk cap (List.range' l n) out).2, { f with sec := s })
  | 0, l, out, f => ⟨f.sec, rfl⟩
  | n + 1, l, out, f => by
    rw [List.range'_succ, readSecs, readClus]
    split
    · by_cases hlt : f.disk.drive.reads l = true
      · have hmin : (if out.length + 512 > cap then cap - out.length else 512)
            = min 512 (cap - out.length) := by
          split <;> omega
        rw [ideRead_works hlt, if_pos hlt]
        simp only [hmin]
        exact readClus_spec cap n (l + 1) _ { f with sec := f.disk.data l }
      · rw [ideRead_fails (Bool.eq_false_iff.mpr hlt), if_neg hlt]
        exact ⟨f.sec, rfl⟩
    · exact ⟨f.sec, rfl⟩

theorem secsOf_cons (g : Geo) (c : Nat) (cs : List Nat) :
    secsOf g (c :: cs) = List.range' (clusLba c g) g.secPerClus ++ secsOf g cs := by
  rw [secsOf, List.flatMap_cons, List.range'_eq_map_range]
  rfl

theorem readChain_spec {cap : Nat} : ∀ (cs : List Nat) (fuel c : Nat) (out : Str) (f : Vol),
    f.toGeo.Ok → FatsOn f.toGeo f.disk → ClusChain f.toGeo f.disk c cs → cs.length < fuel →
    ∃ s, readChain cap fuel c out f = some ((readSecs f.disk cap (secsOf f.toGeo cs) out).1,
      (readSecs f.disk cap (secsOf f.toGeo cs) out).2, { f with sec := s })
  | [], fuel + 1, c, out, f, _, _, hch, _ => by
    have hend : eoc ≤ c := hch.1
    rw [readChain, if_pos hend]
    refine ⟨f.sec, ?_⟩
    split <;> rfl
  | x :: cs, fuel + 1, c, out, f, hg, ho, hch, hfuel => by
    obtain ⟨rfl, hlt, hrest⟩ := hch.1
    have hr : InRange f.toGeo c := hch.2 c (by simp)
    have hne : ¬ eoc ≤ c := hlt
    rw [readChain, if_neg hne]
    by_cases hroom : out.length < cap
    · obtain ⟨s, hs⟩ := readClus_spec cap f.secPerClus (clusLba c f.toGeo) out f
      rw [if_pos hroom, hs, secsOf_cons, readSecs_append]
      cases hb : (readSecs f.disk cap (List.range' (clusLba c f.toGeo) f.secPerClus) out).1 with
      | false => exact ⟨s, by rw [if_neg (by simp), hb]⟩
      | true =>
        simp only [if_true]
        rw [fatNext_eq (f := { f with sec := s }) hg ho hr.2]
        exact readChain_spec cs fuel (link f.toGeo f.disk c) _
          { f with sec := f.disk.data (fatLba f.toGeo 0 c) } hg ho
          ⟨hrest, fun y hy => hch.2 y (List.mem_cons_of_mem _ hy)⟩ (Nat.lt_of_succ_lt_succ hfuel)
    · rw [if_neg hroom, readSecs_full (Nat.not_lt.mp hroom)]
      exact ⟨f.sec, rfl⟩

/-! ## `fat_read` -/

/-- The clusters `fat_read` may visit for the entry in `sl`: its chain, or none for
an empty file. -/
def FileChain (g : Geo) (d : Disk) (sl : Slot) (cs : List Nat) : Prop :=
  ClusChain g d (entClus (ent d sl)) cs ∨
    (entClus (ent d sl) = 0 ∧ entSize (ent d sl) = 0) ∧ cs = []

/-- What `fat_read` returns for the file in `sl`. -/
def fileRead (g : Geo) (d : Disk) (cap : Nat) (sl : Slot) (cs : List Nat) : Option Nat × Str :=
  match readSecs d (min (entSize (ent d sl)) cap) (secsOf g cs) [] with
  | (true, out) => (some out.length, out)
  | (false, out) => (none, out)

theorem Tree.fileChain {g : Geo} {d : Disk} (ht : Tree g d) {sl : Slot} (hr : Ref g d (some sl))
    (hd : isDir d (some sl) = false) : ∃ cs, FileChain g d sl cs := by
  rcases ht.fileIn sl hr hd with hin | h0
  · obtain ⟨cs, hcs⟩ := ht.chain _ hr hin
    exact ⟨cs, Or.inl hcs⟩
  · exact ⟨[], Or.inr ⟨h0, rfl⟩⟩

theorem FileChain.unique {g : Geo} {d : Disk} {sl : Slot} {cs cs' : List Nat}
    (h : FileChain g d sl cs) (h' : FileChain g d sl cs') : cs = cs' := by
  rcases h with h | ⟨h0, rfl⟩ <;> rcases h' with h' | ⟨h0', rfl⟩
  · exact h.unique h'
  · rw [h0'.1] at h
    exact (chain_zero h).elim
  · rw [h0.1] at h'
    exact (chain_zero h').elim
  · rfl

/-- With `*isdir = 1` before the call, `walk` reports the reference. -/
theorem walk_true {f : Vol} (ht : Tree f.toGeo f.disk) {fuel : Nat}
    (hfuel : f.fatSz * 128 ≤ fuel) {abs : Str} (size : Nat) {r : Option Slot}
    (hw : WalksTo f.toGeo f.disk none abs r) :
    ∃ s, walk fuel abs true size f
      = some (some (hitOf f.toGeo f.disk size r), { f with sec := s }) := by
  obtain ⟨s, res, hrun, hyes, -⟩ := walk_spec ht hfuel abs true size
  refine ⟨s, ?_⟩
  rw [hrun]
  rcases hyes r hw with rfl | ⟨hcs, rfl⟩
  · rfl
  · have hst := hw.steps
    rw [hcs] at hst
    cases hst
    rfl

/-- **Reading a file.** -/
theorem fatRead_file {f : Vol} (ht : Tree f.toGeo f.disk) {fuel : Nat}
    (hfuel : f.fatSz * 128 ≤ fuel) {path abs : Str} (cap : Nat)
    (ha : abspath f.cwdPath path = some abs) {sl : Slot}
    (hw : WalksTo f.toGeo f.disk none abs (some sl)) (hd : isDir f.disk (some sl) = false)
    {cs : List Nat} (hcs : FileChain f.toGeo f.disk sl cs) :
    ∃ s, fatRead fuel path cap f
      = some (fileRead f.toGeo f.disk cap sl cs, { f with sec := s }) := by
  obtain ⟨s, hwalk⟩ := walk_true ht hfuel 0 hw
  have hdir : entIsDir (ent f.disk sl) = false := hd
  have hmin : (if entSize (ent f.disk sl) < cap then entSize (ent f.disk sl) else cap)
      = min (entSize (ent f.disk sl)) cap := by
    split <;> omega
  unfold fatRead
  rw [ha]
  simp only [hwalk, hitOf, hdir, Bool.false_eq_true, if_false, hmin]
  obtain ⟨t, ht'⟩ : ∃ t, readChain (min (entSize (ent f.disk sl)) cap) fuel
    (entClus (ent f.disk sl))
      [] { f with sec := s } = some
        ((readSecs f.disk (min (entSize (ent f.disk sl)) cap) (secsOf f.toGeo cs) []).1,
        (readSecs f.disk (min (entSize (ent f.disk sl)) cap) (secsOf f.toGeo cs) []).2,
        { f with sec := t }) := by
    rcases hcs with hcs | ⟨⟨-, hsize⟩, rfl⟩
    · exact readChain_spec cs fuel _ [] { f with sec := s } ht.geo ht.fatsOn hcs
        (Nat.lt_of_lt_of_le (hcs.length_lt ht.geo) hfuel)
    · have hpos := ht.geo.fatSz_pos
      obtain ⟨n, rfl⟩ : ∃ n, fuel = n + 1 := ⟨fuel - 1, by omega⟩
      refine ⟨s, ?_⟩
      rw [hsize, Nat.zero_min]
      rfl
  refine ⟨t, ?_⟩
  rw [ht', fileRead]
  cases hres : readSecs f.disk (min (entSize (ent f.disk sl)) cap) (secsOf f.toGeo cs) [] with
  | mk b out => cases b <;> rfl

/-- Anything else is not read. -/
theorem fatRead_none {f : Vol} (ht : Tree f.toGeo f.disk) {fuel : Nat}
    (hfuel : f.fatSz * 128 ≤ fuel) {path : Str} (cap : Nat)
    (h : ∀ abs r, abspath f.cwdPath path = some abs → WalksTo f.toGeo f.disk none abs r →
      isDir f.disk r = true) :
    ∃ s, fatRead fuel path cap f = some ((none, []), { f with sec := s }) := by
  unfold fatRead
  cases ha : abspath f.cwdPath path with
  | none => exact ⟨f.sec, rfl⟩
  | some abs =>
    by_cases hex : ∃ r, WalksTo f.toGeo f.disk none abs r
    · obtain ⟨r, hw⟩ := hex
      obtain ⟨s, hwalk⟩ := walk_true ht hfuel 0 hw
      have hdir : (hitOf f.toGeo f.disk 0 r).isdir = true := (hitOf_isdir 0 r).trans (h abs r ha hw)
      exact ⟨s, by simp only [hwalk, hdir, if_true]⟩
    · obtain ⟨s, res, hrun, -, hno⟩ := walk_spec ht hfuel abs true 0
      rw [hno fun r hw => hex ⟨r, hw⟩] at hrun
      exact ⟨s, by simp only [hrun]⟩

/-! ## Two disks with the same view -/

section View

variable {g : Geo} {d d' : Disk} {X : Slot → Prop}

/-- The slots in `X` hold no directory. -/
def NoDirs (g : Geo) (d : Disk) (X : Slot → Prop) : Prop :=
  ∀ sl, X sl → Ref g d (some sl) → isDir d (some sl) = false

theorem View.isDir (hv : View g d d' X) {sl : Slot} (hr : Ref g d (some sl)) (hx : ¬ X sl) :
    isDir d' (some sl) = isDir d (some sl) := (hv.ent sl hr hx).isDir

theorem View.named (hv : View g d d' X) {r : Option Slot} {nm : Str} {sl : Slot} (hr : Ref g d r)
    (hrx : ∀ a, r = some a → ¬ X a) (hx : ¬ X sl) (h : Named g d r nm sl) :
    Named g d' r nm sl := by
  refine ⟨(hv.child r hr hrx sl hx).mpr h.1, ?_⟩
  rw [(hv.ent sl (Ref.entry hr h.1) hx).entryName]
  exact h.2

/-- A path to a reference outside `X` leads there still. -/
theorem View.steps (hv : View g d d' X) (hX : NoDirs g d X) :
    ∀ {ps : List Str} {r r' : Option Slot}, Ref g d r → (∀ a, r = some a → ¬ X a) →
      (∀ a, r' = some a → ¬ X a) → Steps g d r ps r' → Steps g d' r ps r'
  | [], _, _, _, _, _, h => h
  | _ :: ps, r, r', hr, hrx, hx, h => by
    obtain ⟨a, hn, h⟩ := h
    have ha : ¬ X a := by
      cases ps with
      | nil => exact hx a h.symm
      | cons q qs =>
        -- something lies below `a`, so it is a directory
        obtain ⟨_, hn', _⟩ := h
        intro hxa
        have hfile := hX a hxa (Ref.entry hr hn.1)
        rw [hn'.1.1] at hfile
        exact absurd hfile (by simp)
    exact ⟨a, hv.named hr hrx ha hn,
      View.steps hv hX (Ref.entry hr hn.1) (fun b hb => by cases hb; exact ha) hx h⟩

theorem View.walksTo (hv : View g d d' X) (hX : NoDirs g d X) {p : Str} {sl : Slot}
    (hx : ¬ X sl) (h : WalksTo g d none p (some sl)) : WalksTo g d' none p (some sl) := by
  refine ⟨h.short, hv.steps hX Ref.root (by simp) (fun a ha => by cases ha; exact hx) h.steps, ?_⟩
  rw [hv.isDir (h.steps.ref Ref.root) hx]
  exact h.file

/-- With nothing excepted no path gets anywhere new. -/
theorem View.steps_inv (hv : View g d d' fun _ => False) :
    ∀ {ps : List Str} {r r' : Option Slot}, Ref g d r → Steps g d' r ps r' → Steps g d r ps r'
  | [], _, _, _, h => h
  | _ :: _, r, _, hr, h => by
    obtain ⟨a, ⟨hc, hn⟩, h⟩ := h
    have hc' := (hv.child r hr (by simp) a (by simp)).mp hc
    rw [(hv.ent a (Ref.entry hr hc') (by simp)).entryName] at hn
    exact ⟨a, ⟨hc', hn⟩, View.steps_inv hv (Ref.entry hr hc') h⟩

theorem View.walksTo_inv (hv : View g d d' fun _ => False) {p : Str} {r : Option Slot}
    (h : WalksTo g d' none p r) : WalksTo g d none p r := by
  have hst := hv.steps_inv Ref.root h.steps
  refine ⟨h.short, hst, fun hd => h.file ?_⟩
  cases r with
  | none => exact absurd hd (by simp [Fat.isDir])
  | some sl => rw [hv.isDir (hst.ref Ref.root) (by simp), hd]

theorem View.hitOf (hv : View g d d' X) {sl : Slot} (hr : Ref g d (some sl)) (hx : ¬ X sl)
    (size : Nat) : hitOf g d' size (some sl) = hitOf g d size (some sl) := by
  have he := hv.ent sl hr hx
  rw [Fat.hitOf, Fat.hitOf, he.clus, he.size, he.isDir]

theorem View.fileChain (hv : View g d d' X) {sl : Slot} (hr : Ref g d (some sl)) (hx : ¬ X sl)
    (hd : Fat.isDir d (some sl) = false) {cs : List Nat} (h : FileChain g d sl cs) :
    FileChain g d' sl cs ∧ ∀ cap, fileRead g d' cap sl cs = fileRead g d cap sl cs := by
  have he := hv.ent sl hr hx
  have hdata : ∀ l ∈ secsOf g cs, d'.data l = d.data l := by
    rcases h with h | ⟨-, rfl⟩
    · exact (hv.file sl hr hx hd cs h).2
    · simp [secsOf]
  refine ⟨?_, fun cap => ?_⟩
  · unfold FileChain
    rw [he.clus, he.size]
    exact h.imp_left fun h => (hv.file sl hr hx hd cs h).1
  · rw [fileRead, fileRead, he.size, readSecs_congr hv.drive hdata]

end View

section Same

variable {f f' : Vol} {X : Slot → Prop} (ht : Tree f.toGeo f.disk) (ht' : Tree f.toGeo f'.disk)
  (hg : f'.toGeo = f.toGeo) {path : Str} (hc : abspath f'.cwdPath path = abspath f.cwdPath path)
  {fuel : Nat} (hfuel : f.fatSz * 128 ≤ fuel)

include ht ht' hg hc hfuel

/-- **A file outside `X` reads the same** on two disks that look the same outside `X`. -/
theorem fatRead_view (hv : View f.toGeo f.disk f'.disk X) (hX : NoDirs f.toGeo f.disk X)
    {abs : Str} (cap : Nat) (ha : abspath f.cwdPath path = some abs) {sl : Slot}
    (hw : WalksTo f.toGeo f.disk none abs (some sl)) (hx : ¬ X sl)
    (hd : isDir f.disk (some sl) = false) :
    ∃ res f₁ f₂, fatRead fuel path cap f = some (res, f₁) ∧
      fatRead fuel path cap f' = some (res, f₂) := by
  have hr := hw.steps.ref Ref.root
  obtain ⟨cs, hcs⟩ := ht.fileChain hr hd
  obtain ⟨hcs', hread⟩ := hv.fileChain hr hx hd hcs
  have hw' := hv.walksTo hX hx hw
  have hd' := (hv.isDir hr hx).trans hd
  obtain ⟨s, hs⟩ := fatRead_file ht hfuel cap ha hw hd hcs
  have hfuel' : f'.fatSz * 128 ≤ fuel := by rw [hg]; exact hfuel
  rw [← hg] at ht' hw' hcs' hread
  obtain ⟨s', hs'⟩ := fatRead_file ht' hfuel' cap (by rw [hc]; exact ha) hw' hd' hcs'
  rw [hread, hg] at hs'
  exact ⟨_, _, _, hs, hs'⟩

/-- **Every path reads the same** on two disks that look the same everywhere. -/
theorem fatRead_same (hv : View f.toGeo f.disk f'.disk fun _ => False) (cap : Nat) :
    ∃ res f₁ f₂, fatRead fuel path cap f = some (res, f₁) ∧
      fatRead fuel path cap f' = some (res, f₂) := by
  by_cases hex : ∃ abs sl, abspath f.cwdPath path = some abs ∧
      WalksTo f.toGeo f.disk none abs (some sl) ∧ isDir f.disk (some sl) = false
  · obtain ⟨abs, sl, ha, hw, hd⟩ := hex
    exact fatRead_view ht ht' hg hc hfuel hv (by simp [NoDirs]) cap ha hw (by simp) hd
  · have hdir : ∀ abs r, abspath f.cwdPath path = some abs →
        WalksTo f.toGeo f.disk none abs r → isDir f.disk r = true := by
      intro abs r ha hw
      cases r with
      | none => rfl
      | some sl => exact Bool.not_eq_false _ ▸ fun hd => hex ⟨abs, sl, ha, hw, hd⟩
    have hdir' : ∀ abs r, abspath f'.cwdPath path = some abs →
        WalksTo f.toGeo f'.disk none abs r → isDir f'.disk r = true := by
      intro abs r ha hw
      rw [hc] at ha
      have hw₀ := hv.walksTo_inv hw
      cases r with
      | none => rfl
      | some sl =>
        rw [hv.isDir (hw₀.steps.ref Ref.root) (by simp)]
        exact hdir abs _ ha hw₀
    have hfuel' : f'.fatSz * 128 ≤ fuel := by rw [hg]; exact hfuel
    rw [← hg] at ht' hdir'
    obtain ⟨s, hs⟩ := fatRead_none ht hfuel cap hdir
    obtain ⟨s', hs'⟩ := fatRead_none ht' hfuel' cap hdir'
    exact ⟨_, _, _, hs, hs'⟩

end Same

end InaneOS.Fat
