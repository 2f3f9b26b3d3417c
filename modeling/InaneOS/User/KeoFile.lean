import InaneOS.User.KeoInv

/-!
# Saving and opening again

`save` writes every line with a newline behind it (`joined`). `load` counts a line for every
newline, up to the last of the 256, and then takes the newline at the end of the file for the
end of a line and not the start of another. With 256 lines the last newline did not start
another line, and the line is lost: `load_save` says that this is the only case for text that
comes from the editor. A file from elsewhere can also have more lines or longer ones than the
table, and what does not fit is gone when it is saved: `load_save_file`.
-/

namespace InaneOS.User

open InaneOS.Lib

/-- The bytes of a file with these lines. -/
def joined (ls : List (List UInt8)) : List UInt8 := ls.flatMap fun l => l ++ [10]

theorem joined_eq (ls : List (List UInt8)) : joined ls = joinLines 10 ls := rfl

/-! ## Both together -/

/-- The buffer can be saved and its lines told apart again. -/
structure Savable (k : Keo) : Prop where
  lo : 1 ≤ k.nlines
  hi : k.nlines ≤ 256
  len : ∀ i, 0 ≤ i → i < k.nlines → 0 ≤ k.text.lens i ∧ k.text.lens i ≤ 255
  newline : ∀ i, 0 ≤ i → i < k.nlines → 10 ∉ k.text.row i

/-- The same lines in both buffers. -/
def SameLines (k k' : Keo) : Prop :=
  k'.nlines = k.nlines ∧
    ∀ i, 0 ≤ i → i < k.nlines → k'.text.lens i = k.text.lens i ∧ k'.text.row i = k.text.row i

/-- `save` that went well handed over the lines, joined. -/
theorem save_bytes {k k1 : Keo} {r : Int} {out : Option (List UInt8)} (h : Savable k)
    (hs : save r k = some (0, k1, out)) : out = some (joined (k.text.rows k.nlines)) := by
  rw [save_eq h.lo h.hi h.len r] at hs
  have hs := Option.some.inj hs
  split at hs
  · exact absurd (congrArg Prod.fst hs) (by decide : (-99 : Int) ≠ 0)
  · split at hs
    · exact (congrArg (fun p => p.2.2) hs).symm
    · exact absurd (congrArg Prod.fst hs) (by decide : fsFull ≠ 0)

/-- A newline at the end is the end of a line. -/
theorem loaded_newline {bytes : List UInt8} (h : bytes.getLast? = some 10) :
    loaded bytes = (readLines 10 256 255 bytes).done := by
  obtain ⟨cs, rfl⟩ := List.getLast?_eq_some_iff.mp h
  refine if_pos ⟨h, ?_⟩
  rw [readLines_snoc]
  exact read_sep_done (by decide) _

/-- The lines come back exactly if there are at most 255. -/
theorem loaded_joined {ls : List (List UInt8)} (hne : ls ≠ [])
    (hls : ∀ l ∈ ls, l.length ≤ 255 ∧ 10 ∉ l) :
    loaded (joined ls) = ls ↔ ls.length ≤ 255 := by
  have hlast : (joined ls).getLast? = some 10 := joinLines_getLast? 10 hne
  rw [loaded_newline hlast]
  constructor
  · intro h
    have hlt := @readLines_done_lt _ _ (10 : UInt8) 256 255 (by decide) (joined ls)
    rw [h] at hlt
    exact Nat.le_of_lt_succ hlt
  · intro h
    rw [joined_eq, readLines_joinLines hls (Nat.lt_succ_of_le h)]

/-- **Saving and reopening gives the same text, exactly for at most 255 lines.** -/
theorem load_save {k k0 k1 : Keo} {r : Int} {bytes : List UInt8} (h : Savable k)
    (hs : save r k = some (0, k1, some bytes)) :
    (∃ k', load (some bytes) k0 = some k' ∧ SameLines k k') ↔ k.nlines ≤ 255 := by
  have hlo := h.lo
  have hcount : (k.text.rows k.nlines).length = k.nlines.toNat := rows_length _ _
  have hne : k.text.rows k.nlines ≠ [] := by
    rw [← List.length_pos_iff]
    omega
  have hgood : ∀ l ∈ k.text.rows k.nlines, l.length ≤ 255 ∧ 10 ∉ l := by
    intro l hl
    obtain ⟨j, hj, rfl⟩ := List.mem_map.mp hl
    have hjn := List.mem_range.mp hj
    obtain ⟨hl0, hl1⟩ := h.len j (by omega) (by omega)
    exact ⟨by rw [row_def, tab_length]; omega, h.newline j (by omega) (by omega)⟩
  have hback := loaded_joined hne hgood
  obtain ⟨t, n, msg, hload, -, hn0, hn1, hlen, hrows⟩ := load_reads (some bytes) k0
  rw [Option.getD_some, Option.some.inj (save_bytes h hs)] at hrows
  rw [hrows.symm] at hback
  have hsmall : k.nlines ≤ 255 ↔ t.rows n = k.text.rows k.nlines := by
    rw [hback]
    omega
  rw [hsmall]
  constructor
  · intro h
    obtain ⟨k', hload', hsame, hlines⟩ := h
    rw [hload] at hload'
    obtain rfl := Option.some.inj hload'
    dsimp only at hsame hlines
    rw [hsame]
    exact rows_congr fun r hr0 hr1 => (hlines r hr0 hr1).2
  · intro hsame
    have hnn : n = k.nlines := by
      have := congrArg List.length hsame
      rw [rows_length, rows_length] at this
      omega
    subst hnn
    refine ⟨_, hload, rfl, fun i hi0 hi1 => ?_⟩
    have hrow : t.row i = k.text.row i := rows_row hsame hi0 hi1
    have hlen' := congrArg List.length hrow
    rw [row_def, row_def, tab_length, tab_length] at hlen'
    have hl := h.len i hi0 hi1
    have hl' := hlen i hi0 hi1
    exact ⟨by dsimp only; omega, hrow⟩

/-- `n` empty lines in the file `a`. -/
def blankKeo (n : Int) : Keo := { Keo.start with nlines := n, fname := put (fun _ => 0) 0 97 }

theorem blankKeo_savable {n : Int} (h1 : 1 ≤ n) (h2 : n ≤ 256) : Savable (blankKeo n) := by
  refine ⟨h1, h2, fun _ _ _ => ?_, fun i _ _ => ?_⟩
  · show (0 : Int) ≤ 0 ∧ (0 : Int) ≤ 255
    omega
  · show 10 ∉ ([] : List UInt8)
    simp

/-- One empty line comes back. -/
theorem load_save_blank :
    Savable (blankKeo 1) ∧ ∃ k1, save 0 (blankKeo 1) = some (0, k1, some [10]) ∧
    ∃ k', load (some [10]) (blankKeo 1) = some k' ∧ SameLines (blankKeo 1) k' := by
  have h := blankKeo_savable (Int.le_refl 1) (by omega)
  have hs : save 0 (blankKeo 1) = some (0, blankKeo 1, some [10]) := rfl
  exact ⟨h, _, hs, (load_save h hs).mpr (by decide)⟩

/-- 256 empty lines come back as 255. -/
theorem load_save_full : Savable (blankKeo 256) ∧
    (save 0 (blankKeo 256)).map (fun p => (p.1, p.2.2)) = some (0, some (List.replicate 256 10)) ∧
    ∀ k', load (some (List.replicate 256 10)) (blankKeo 256) = some k' →
      ¬ SameLines (blankKeo 256) k' := by
  refine ⟨blankKeo_savable (by omega) (by omega), by decide +kernel, fun k' hload hsame => ?_⟩
  have hlines : (load (some (List.replicate 256 10)) (blankKeo 256)).map (fun k => k.nlines) =
    some 255 := by
    decide +kernel
  rw [hload] at hlines
  have h255 : k'.nlines = 255 := Option.some.inj hlines
  rw [hsame.1] at h255
  exact absurd h255 (by decide)

/-! ## Opening and saving -/

theorem load_savable {file : Option (List UInt8)} {k k' : Keo} (h : load file k = some k') :
    Savable k' ∧ k'.text.rows k'.nlines = loaded (file.getD []) := by
  obtain ⟨t, n, msg, hload, -, hlo, hhi, hlen, hrows⟩ := load_reads file k
  rw [hload] at h
  obtain rfl := Option.some.inj h
  refine ⟨⟨hlo, hhi, hlen, fun i hi0 hi1 => ?_⟩, hrows⟩
  have hcut := @readLines_cut _ _ (10 : UInt8) 256 255 (file.getD [])
  have hmem : t.row i ∈ loaded (file.getD []) := by
    rw [← hrows]
    refine List.mem_map.mpr ⟨i.toNat, List.mem_range.mpr (by dsimp only at hi1; omega), ?_⟩
    rw [show ((i.toNat : Nat) : Int) = i by omega]
  unfold loaded at hmem
  dsimp only at hmem
  split at hmem
  · exact hcut.done _ hmem
  · rcases List.mem_append.mp hmem with hold | hnew
    · exact hcut.done _ hold
    · have hrow : t.row i = (readLines 10 256 255 (file.getD [])).cur := List.mem_singleton.mp hnew
      show 10 ∉ t.row i
      rw [hrow]
      exact hcut.cur

/-- The bytes of a file, with a newline at its end. -/
def terminated (bytes : List UInt8) : List UInt8 :=
  if bytes.getLast? = some 10 then bytes else bytes ++ [10]

/-- The lines of a file are the file exactly if they fit. -/
theorem joined_loaded_iff (bytes : List UInt8) :
    joined (loaded bytes) = terminated bytes ↔ Fits 10 256 255 bytes := by
  rw [← text_eq_iff (by decide) bytes]
  have hcut := @readLines_cut _ _ (10 : UInt8) 256 255 bytes
  have hle := @text_length_le _ _ (10 : UInt8) 256 255 bytes
  by_cases hlast : bytes.getLast? = some 10
  · rw [loaded_newline hlast, terminated, if_pos hlast, joined_eq]
    generalize readLines 10 256 255 bytes = p at hcut hle ⊢
    unfold Lines.text at hle ⊢
    constructor
    · intro hdone
      rw [hdone, List.length_append] at hle
      have hcur : p.cur = [] := List.length_eq_zero_iff.mp (by omega)
      rw [hdone, hcur, List.append_nil]
    · intro htext
      -- the newline at the end is not in the last line
      have hcur : p.cur = [] := by
        by_contra hne
        rw [← htext, List.getLast?_append_of_ne_nil _ hne] at hlast
        exact hcut.cur (List.mem_of_getLast? hlast)
      rw [hcur, List.append_nil] at htext
      exact htext
  · have hrows : loaded bytes = (readLines 10 256 255 bytes).done ++
      [(readLines 10 256 255 bytes).cur] :=
      if_neg fun h => hlast h.1
    rw [hrows, terminated, if_neg hlast, joined_eq, joinLines_append, joinLines_single,
      ← List.append_assoc]
    exact ⟨List.append_cancel_right, fun h => congrArg (· ++ [10]) h⟩

/-- **Opening and saving gives the file back, exactly if its lines fit.** When `load` has read
a file and `save` goes well, the bytes handed over are those of the file, with a newline at the
end, exactly for at most 255 newlines and no run of more than 255 other bytes. -/
theorem load_save_file (file : List UInt8) (k : Keo) : ∃ k1, load (some file) k = some k1 ∧
    ∀ r k2 out, save r k1 = some (0, k2, out) → (out = some (terminated file) ↔
      file.count 10 ≤ 255 ∧ ∀ l, l <:+: file → 10 ∉ l → l.length ≤ 255) := by
  obtain ⟨t, n, msg, hload, -⟩ := load_reads (some file) k
  refine ⟨_, hload, fun r k2 out hs => ?_⟩
  obtain ⟨hsav, hrows⟩ := load_savable hload
  have hfits : file.count 10 ≤ 255 ∧ (∀ l, l <:+: file → 10 ∉ l → l.length ≤ 255) ↔
      Fits 10 256 255 file := and_congr_left fun _ => Nat.lt_succ_iff.symm
  rw [hfits, ← joined_loaded_iff]
  rw [save_bytes hsav hs, hrows, Option.some.injEq]
  rfl

/-- One line without its newline. -/
theorem load_save_file_line : ∃ k1, load (some [97]) (blankKeo 1) = some k1 ∧
    ∃ k2, save 0 k1 = some (0, k2, some [97, 10]) := by
  obtain ⟨k1, hload, hsave⟩ := load_save_file [97] (blankKeo 1)
  have hret : (load (some [97]) (blankKeo 1) >>= save 0).map Prod.fst = some 0 := by decide +kernel
  rw [hload] at hret
  obtain ⟨⟨ret, k2, out⟩, hs, hzero⟩ := Option.map_eq_some_iff.mp hret
  obtain rfl : ret = 0 := hzero
  have hs : save 0 k1 = some (0, k2, out) := hs
  refine ⟨k1, hload, k2, ?_⟩
  rw [hs, (hsave 0 k2 out hs).mpr ⟨by decide, fun l hl _ => ?_⟩]
  · rfl
  · have hle := hl.length_le
    exact Nat.le_trans hle (by decide)

/-- Of 256 empty lines one is lost, and of a line of 256 bytes the last byte. -/
theorem load_save_loses :
    (∃ k1 k2, load (some (List.replicate 256 10)) (blankKeo 1) = some k1 ∧
      save 0 k1 = some (0, k2, some (List.replicate 255 10))) ∧
    terminated (List.replicate 256 10) = List.replicate 256 10 ∧
    (∃ k1 k2, load (some (List.replicate 256 97)) (blankKeo 1) = some k1 ∧
      save 0 k1 = some (0, k2, some (List.replicate 255 97 ++ [10]))) ∧
    terminated (List.replicate 256 97) = List.replicate 256 97 ++ [10] := by
  -- what is saved are the lines as they were loaded
  have hsaved : ∀ file, (joined (loaded file)).length ≤ 4096 → ∃ k1 k2,
      load (some file) (blankKeo 1) = some k1 ∧
        save 0 k1 = some (0, k2, some (joined (loaded file))) := by
    intro file hfits
    obtain ⟨t, n, msg, hload, -, hlo, hhi, hlen, hrows⟩ := load_reads (some file) (blankKeo 1)
    have hname : (blankKeo 1).fname 0 ≠ 0 := by decide
    have hsave := @save_eq { blankKeo 1 with
      text := t, nlines := n, cx := 0, cy := 0, top := 0, dirty := false,
      mode := .normal, msg := msg }
      hlo hhi hlen 0
    dsimp only at hsave
    rw [if_neg hname, hrows, Option.getD_some] at hsave
    exact ⟨_, _, hload, hsave.trans (congrArg some (if_pos hfits))⟩
  have hblank : readLines (10 : UInt8) 256 255 (List.replicate 256 10) =
    ⟨List.replicate 255 [], []⟩ := by
    have hfull : ¬ (Lines.mk (List.replicate 255 []) []).Keeps (10 : UInt8) 256 255 10 := by
      unfold Lines.Keeps
      rw [List.length_replicate]
      decide
    have hgood : ∀ l ∈ List.replicate 255 ([] : List UInt8), l.length ≤ 255 ∧ 10 ∉ l :=
      fun l hl => by
      rw [List.eq_of_mem_replicate hl]
      decide
    rw [List.replicate_succ', readLines_snoc, ← joinLines_blank,
      readLines_joinLines hgood (by rw [List.length_replicate]; decide), read_drops hfull]
  have hlines : joined (loaded (List.replicate 256 10)) = List.replicate 255 10 := by
    have hlast : (List.replicate 256 (10 : UInt8)).getLast? = some 10 := by
      rw [List.replicate_succ']
      exact List.getLast?_concat ..
    rw [loaded_newline hlast, hblank, joined_eq, joinLines_blank]
  have hread : readLines (10 : UInt8) 256 255 (List.replicate 256 97) =
    ⟨[], List.replicate 255 97⟩ := by
    have hnl : (10 : UInt8) ∉ List.replicate 256 97 := fun h =>
      absurd (List.eq_of_mem_replicate h) (by decide)
    rw [readLines_line hnl, List.take_replicate, Nat.min_eq_left (by omega)]
  have hlong : joined (loaded (List.replicate 256 97)) = List.replicate 255 97 ++ [10] := by
    unfold loaded
    rw [hread]
    exact joinLines_single _ _
  have hlines' : (joined (loaded (List.replicate 256 10))).length = 255 := by
    simp only [hlines, List.length_replicate]
  have hlong' : (joined (loaded (List.replicate 256 97))).length = 256 := by
    simp only [hlong, List.length_append, List.length_replicate, List.length_singleton]
  obtain ⟨k1, k2, hload, hsave⟩ := hsaved (List.replicate 256 10) (by omega)
  obtain ⟨k1', k2', hload', hsave'⟩ := hsaved (List.replicate 256 97) (by omega)
  rw [hlines] at hsave
  rw [hlong] at hsave'
  exact ⟨⟨k1, k2, hload, hsave⟩, by decide +kernel, ⟨k1', k2', hload', hsave'⟩, by decide +kernel⟩

end InaneOS.User
