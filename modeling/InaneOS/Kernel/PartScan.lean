import InaneOS.Drivers.IdeRun
import InaneOS.Kernel.Partlist

/-!
# Finding the partitions: `kernel/part.c`

`part_scan` reads sector 0 through the driver and keeps the entries of its table whose
type is not 0, in their order. It runs over any device behind ports;
`partScan_spec` says what it finds on a drive, and `partScan_formatted` that a table
written by `format` is found again, whatever else the sector holds.
-/

namespace InaneOS.Kernel

open InaneOS.Lib
open InaneOS.Fat (Sector Disk Vol rd32 wr32)
open InaneOS.Fs (Part)
open InaneOS.Drivers

/-! ## The code -/

def partTableMax : Nat := 4

/-- The loop over the entries `is` of the table, with `parts` found so far. -/
def scanLoop (sec : Sector) : List Nat → List Part → List Part
  | [], parts => parts
  | i :: is, parts =>
    let e := 0x1BE + i * 16
    if sec (e + 4) = 0 then scanLoop sec is parts
    else scanLoop sec is (parts ++ [⟨sec (e + 4), rd32 sec (e + 8), rd32 sec (e + 12)⟩])

/-- `part_scan()`: its result, the table, and the driver. -/
def partScan {σ : Type} (b : Bus σ) (s : Ide σ) : Int × List Part × Ide σ :=
  let (ok, s) := ideInit b s
  if !ok then (-1, [], s)
  else
    match ideRead b 0 s with
    | (none, s) => (-1, [], s)
    | (some bytes, s) =>
      let sec : Sector := fun i => bytes.getD i 0
      if sec 510 ≠ 0x55 ∨ sec 511 ≠ 0xAA then (0, [], s)
      else
        let parts := scanLoop sec (List.range partTableMax) []
        (parts.length, parts, s)

/-! ## What it finds -/

/-- Entry `i` of the table, if it is in use. -/
def entryOf (sec : Sector) (i : Nat) : Option Part :=
  let e := 0x1BE + i * 16
  if sec (e + 4) = 0 then none else some ⟨sec (e + 4), rd32 sec (e + 8), rd32 sec (e + 12)⟩

theorem scanLoop_eq (sec : Sector) : ∀ (is : List Nat) (parts : List Part),
    scanLoop sec is parts = parts ++ is.filterMap (entryOf sec)
  | [], parts => by rw [scanLoop, List.filterMap_nil, List.append_nil]
  | i :: is, parts => by
    rw [scanLoop, List.filterMap_cons]
    by_cases h : sec (0x1BE + i * 16 + 4) = 0
    · rw [if_pos h, entryOf, if_pos h]
      exact scanLoop_eq sec is parts
    · rw [if_neg h, entryOf, if_neg h, scanLoop_eq sec is, List.append_assoc]
      rfl

/-- The table in a sector. -/
def tableOf (sec : Sector) : List Part :=
  if sec 510 = 0x55 ∧ sec 511 = 0xAA then (List.range partTableMax).filterMap (entryOf sec) else []

theorem tableOf_congr {sec sec' : Sector} (h : ∀ i < 512, sec i = sec' i) :
    tableOf sec = tableOf sec' := by
  unfold tableOf
  rw [h 510 (by omega), h 511 (by omega)]
  congr 1
  refine List.filterMap_congr fun i hi => ?_
  have hi4 : i < 4 := List.mem_range.mp hi
  unfold entryOf
  dsimp only
  have hword : ∀ o, o + 4 ≤ 512 → rd32 sec o = rd32 sec' o := fun o ho =>
    Fat.rd32_congr fun k _ hk => h k (by omega)
  rw [h (0x1BE + i * 16 + 4) (by omega), hword (0x1BE + i * 16 + 8) (by omega),
    hword (0x1BE + i * 16 + 12) (by omega)]

theorem rd32_lt (p : Nat → UInt8) (o : Nat) : rd32 p o < 2 ^ 32 := by
  rw [Fat.rd32_eq]
  exact getLE_lt p 4 o

theorem entryOf_fits {sec : Sector} {i : Nat} {p : Part} (h : entryOf sec i = some p) :
    p.type ≠ 0 ∧ p.lba < 2 ^ 32 ∧ p.sectors < 2 ^ 32 := by
  unfold entryOf at h
  dsimp only at h
  split at h
  · exact absurd h (by simp)
  · next hne =>
    obtain rfl := Option.some.inj h
    exact ⟨hne, rd32_lt _ _, rd32_lt _ _⟩

/-- What `part_scan` leaves is a table of `part.h`. -/
def partTable (sec : Sector) : PartTable where
  parts := tableOf sec
  count := by
    unfold tableOf
    split
    · exact (List.length_filterMap_le _ _).trans (by simp [partTableMax])
    · exact Nat.zero_le _
  wide := by
    intro p hp
    unfold tableOf at hp
    split at hp
    · obtain ⟨i, -, hi⟩ := List.mem_filterMap.mp hp
      exact (entryOf_fits hi).2
    · exact absurd hp (by simp)

/-- The disk behind a drive, for the sectors below its size. -/
def diskOf (a : Ata) : Disk where
  drive :=
    { reads := fun l => decide (l < a.size) && a.drive.reads l
      writes := fun l => decide (l < a.size) && a.drive.writes l }
  data := a.medium
  log := []

/-- The drive can be used: it takes 48-bit commands, and sector 0 can be read. -/
def Usable (a : Ata) : Prop := a.HasLba48 ∧ 0 < a.size ∧ a.drive.reads 0 = true

/-- **`part_scan`** at boot: on a drive that can be used it finds the table in sector 0, and leaves
the driver ready for the disk behind it. -/
theorem partScan_spec {s : Ide Ata} (hbusy : s.dev.busy = 0) (hp : Prompt s.dev)
    (hsize : s.dev.size ≤ 2 ^ 48) :
    (Usable s.dev → (partScan ataBus s).1 = (tableOf (s.dev.medium 0)).length ∧
      (partScan ataBus s).2.1 = tableOf (s.dev.medium 0) ∧
      ∀ f : Vol, f.disk = diskOf s.dev → Backs (partScan ataBus s).2.2 f) ∧
    (¬ Usable s.dev → (partScan ataBus s).1 = -1 ∧ (partScan ataBus s).2.1 = []) := by
  obtain ⟨hok, hsame, hmedium, hlearn⟩ := ideInit_spec hbusy hp
  unfold partScan
  rcases hi : ideInit ataBus s with ⟨ok, s1⟩
  rw [hi] at hok hsame hmedium hlearn
  dsimp only at hok hsame hmedium hlearn ⊢
  by_cases hlba : s.dev.HasLba48
  · rw [hok, decide_eq_true hlba]
    obtain ⟨hpres, htotal⟩ := hlearn hlba
    have hsize1 : s1.total ≤ 2 ^ 48 := by rw [htotal]; exact hsize
    have hdrive : s1.drive = (diskOf s.dev).drive := by
      unfold Ide.drive diskOf
      rw [hpres, htotal, hsame.drive]
      simp
    obtain ⟨hkept, hmed, hbytes, hprompt⟩ := ideRead_spec hsize1 0
    have hreads : s1.drive.reads 0 = true ↔ Usable s.dev := by
      rw [hdrive]
      simp [diskOf, Usable, hlba]
    have hsome := hprompt (hsame.prompt hp)
    simp only [Bool.not_true, Bool.false_eq_true, if_false]
    rcases hr : ideRead ataBus 0 s1 with ⟨_ | bytes, s2⟩
    · rw [hr] at hsome
      dsimp only at hsome ⊢
      have hnot : ¬ Usable s.dev := fun hu => by
        rw [hreads.mpr hu] at hsome
        exact absurd hsome (by simp)
      exact ⟨fun hu => absurd hu hnot, fun _ => ⟨rfl, rfl⟩⟩
    · rw [hr] at hkept hmed hbytes
      obtain ⟨hyes, hbs⟩ := hbytes bytes rfl
      dsimp only at hkept hmed ⊢
      have htable : tableOf (fun i => bytes.getD i 0) = tableOf (s.dev.medium 0) := by
        refine tableOf_congr fun i hi => ?_
        rw [hbs, hmedium]
        unfold bytesOf
        rw [List.getD_eq_getElem?_getD, tab_getElem?, if_pos hi, Option.getD_some]
      have hback : ∀ f : Vol, f.disk = diskOf s.dev → Backs s2 f := by
        intro f hf
        refine ⟨by rw [hkept.total]; exact hsize1, hkept.dev.prompt (hsame.prompt hp), ?_,
          fun l => ?_⟩
        · rw [hkept.drive, hdrive, hf]
        · rw [hmed, hmedium, hf]
          rfl
      refine ⟨fun _ => ?_, fun hu => absurd (hreads.mp hyes) hu⟩
      rw [← htable]
      unfold tableOf
      by_cases hsig : bytes.getD 510 0 = 0x55 ∧ bytes.getD 511 0 = 0xAA
      · rw [if_neg (by rw [not_or, not_not, not_not]; exact hsig), if_pos hsig, scanLoop_eq,
          List.nil_append]
        exact ⟨rfl, rfl, hback⟩
      · rw [if_pos (by rw [← not_and_or]; exact hsig), if_neg hsig]
        exact ⟨rfl, rfl, hback⟩
  · rw [hok, decide_eq_false hlba]
    exact ⟨fun hu => absurd hu.1 hlba, fun _ => ⟨rfl, rfl⟩⟩

/-! ## Tables that were written -/

/-- One entry of the table: type, first sector and number of sectors, or a free entry. -/
def putEntry (sec : Sector) (i : Nat) : Option Part → Sector
  | none => setByte sec (0x1BE + i * 16 + 4) 0
  | some p =>
    wr32 (wr32 (setByte sec (0x1BE + i * 16 + 4) p.type) (0x1BE + i * 16 + 8) p.lba)
      (0x1BE + i * 16 + 12) p.sectors

/-- The entries from number `i` on. -/
def putEntries : Nat → List (Option Part) → Sector → Sector
  | _, [], sec => sec
  | i, e :: es, sec => putEntries (i + 1) es (putEntry sec i e)

/-- A sector with the table `es` and the signature. -/
def format (es : List (Option Part)) (sec : Sector) : Sector :=
  setByte (setByte (putEntries 0 es sec) 510 0x55) 511 0xAA

/-- An entry that can be written down. -/
def Writable (e : Option Part) : Prop :=
  ∀ p, e = some p → p.type ≠ 0 ∧ p.lba < 2 ^ 32 ∧ p.sectors < 2 ^ 32

theorem entryOf_congr {sec sec' : Sector} {i : Nat}
    (h : ∀ k, 0x1BE + i * 16 + 4 ≤ k → k < 0x1BE + i * 16 + 16 → sec k = sec' k) :
    entryOf sec i = entryOf sec' i := by
  unfold entryOf
  dsimp only
  rw [h _ (Nat.le_refl _) (by omega), Fat.rd32_congr fun k _ hk => h k (by omega) (by omega),
    Fat.rd32_congr fun k _ hk => h k (by omega) (by omega)]

theorem putEntry_other (sec : Sector) {i k : Nat} (e : Option Part)
    (h : k < 0x1BE + i * 16 + 4 ∨ 0x1BE + i * 16 + 16 ≤ k) : putEntry sec i e k = sec k := by
  cases e with
  | none =>
    unfold putEntry
    exact setByte_ne sec 0 (by omega)
  | some p =>
    unfold putEntry
    dsimp only
    rw [Fat.wr32_other _ (by omega), Fat.wr32_other _ (by omega), setByte_ne _ _ (by omega)]

theorem entryOf_putEntry (sec : Sector) (i : Nat) {e : Option Part} (h : Writable e) :
    entryOf (putEntry sec i e) i = e := by
  unfold entryOf
  dsimp only
  cases e with
  | none =>
    rw [if_pos]
    exact setByte_same sec _ 0
  | some p =>
    obtain ⟨htype, hlba, hsec⟩ := h p rfl
    have h4 : putEntry sec i (some p) (0x1BE + i * 16 + 4) = p.type := by
      rw [putEntry, Fat.wr32_other _ (by omega), Fat.wr32_other _ (by omega), setByte_same]
    have h8 : rd32 (putEntry sec i (some p)) (0x1BE + i * 16 + 8) = p.lba := by
      rw [putEntry, Fat.rd32_congr fun k _ hk => Fat.wr32_other _ (by omega),
        Fat.rd32_wr32 _ _ hlba]
    have h12 : rd32 (putEntry sec i (some p)) (0x1BE + i * 16 + 12) = p.sectors := by
      rw [putEntry, Fat.rd32_wr32 _ _ hsec]
    rw [if_neg (by rw [h4]; exact htype), h4, h8, h12]

theorem entryOf_putEntries : ∀ {es : List (Option Part)} {i j : Nat} {sec : Sector},
    (∀ e ∈ es, Writable e) →
    entryOf (putEntries i es sec) j =
      if h : i ≤ j ∧ j - i < es.length then es[j - i] else entryOf sec j
  | [], i, j, sec, _ => by
    rw [putEntries, dif_neg (by simp)]
  | e :: es, i, j, sec, h => by
    rw [putEntries, entryOf_putEntries fun x hx => h x (List.mem_cons_of_mem e hx)]
    by_cases hj : j = i
    · subst hj
      rw [dif_neg (by omega), dif_pos (by simp), entryOf_putEntry _ _ (h e List.mem_cons_self)]
      simp
    · have hkeep : entryOf (putEntry sec i e) j = entryOf sec j :=
        entryOf_congr fun k hk hk' => putEntry_other sec e (by omega)
      rw [hkeep]
      by_cases hin : i + 1 ≤ j ∧ j - (i + 1) < es.length
      · rw [dif_pos hin, dif_pos (by rw [List.length_cons]; omega), List.getElem_cons,
          dif_neg (by omega)]
        rfl
      · rw [dif_neg hin, dif_neg (by rw [List.length_cons]; omega)]

/-- **A table that was written is found**: its partitions, in order, and nothing else. -/
theorem tableOf_format {es : List (Option Part)} (hlen : es.length = 4) (h : ∀ e ∈ es, Writable e)
    (sec : Sector) : tableOf (format es sec) = es.filterMap id := by
  unfold tableOf
  rw [if_pos ⟨by rw [format, setByte_ne _ _ (by omega), setByte_same], setByte_same _ _ _⟩]
  have hentry : ∀ i < 4, entryOf (format es sec) i = es[i]?.join := by
    intro i hi
    have hkeep : entryOf (format es sec) i = entryOf (putEntries 0 es sec) i :=
      entryOf_congr fun k _ hk => by
        rw [format, setByte_ne _ _ (by omega), setByte_ne _ _ (by omega)]
    rw [hkeep, entryOf_putEntries h, dif_pos (by omega), List.getElem?_eq_getElem (by omega)]
    rfl
  match es, hlen with
  | [a, b, c, d], _ =>
    have h0 := hentry 0 (by omega)
    have h1 := hentry 1 (by omega)
    have h2 := hentry 2 (by omega)
    have h3 := hentry 3 (by omega)
    have hrange : List.range partTableMax = [0, 1, 2, 3] := rfl
    rw [hrange]
    simp only [List.filterMap_cons, h0, h1, h2, h3]
    rfl

/-- **Formatted, then booted**: a drive that can be used and whose sector 0 holds a table that
`format` wrote gives its partitions, and the driver is ready for the disk behind it. -/
theorem partScan_formatted {s : Ide Ata} (hbusy : s.dev.busy = 0) (hp : Prompt s.dev)
    (hsize : s.dev.size ≤ 2 ^ 48) (hu : Usable s.dev) {es : List (Option Part)} {sec : Sector}
    (hlen : es.length = 4) (hw : ∀ e ∈ es, Writable e)
    (hsec : ∀ i < 512, s.dev.medium 0 i = format es sec i) :
    (partScan ataBus s).1 = (es.filterMap id).length ∧
      (partScan ataBus s).2.1 = es.filterMap id ∧
      ∀ f : Vol, f.disk = diskOf s.dev → Backs (partScan ataBus s).2.2 f := by
  obtain ⟨hfound, -⟩ := partScan_spec hbusy hp hsize
  have htable : tableOf (s.dev.medium 0) = es.filterMap id := by
    rw [tableOf_congr hsec, tableOf_format hlen hw]
  rw [← htable]
  exact hfound hu

theorem partScan_formatted_small :
    (partScan ataBus ⟨0, false, smallDrive [5, 0, 9] fun _ =>
      format [some ⟨0x0C, 1, 3⟩, none, none, some ⟨0x83, 4, 2⟩] fun _ => 0xFF⟩).2.1 =
        [⟨0x0C, 1, 3⟩, ⟨0x83, 4, 2⟩] := by
  refine (partScan_formatted (s := ⟨0, false, smallDrive [5, 0, 9] fun _ =>
      format [some ⟨0x0C, 1, 3⟩, none, none, some ⟨0x83, 4, 2⟩] fun _ => 0xFF⟩)
    rfl ⟨by decide, by decide⟩ (by decide) ⟨by decide, by decide, rfl⟩ rfl ?_ fun _ _ => rfl).2.1
  intro e he p hp
  simp only [List.mem_cons, List.not_mem_nil, or_false] at he
  rcases he with rfl | rfl | rfl | rfl
  · obtain rfl := Option.some.inj hp
    decide
  · exact absurd hp (by simp)
  · exact absurd hp (by simp)
  · obtain rfl := Option.some.inj hp
    decide

end InaneOS.Kernel
