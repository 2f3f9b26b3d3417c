import InaneOS.Lib.Lines
import InaneOS.User.KeoText

/-!
# What `load` reads and `save` hands over

The loop of `load` fills the table the way `Lib.Lines` reads a stream into 256 lines
of 255 characters (`Reading`), and then takes a newline at the end of the file for the
end of a line and not the start of another: `loaded` are the lines of the file as the
editor has them, and `load_reads` says so of the whole function.

`save` hands over every line with a newline behind it, if that is not more than the
4096 bytes of its buffer (`save_eq`).
-/

namespace InaneOS.User

open InaneOS.Lib

theorem rows_length (t : Text) (n : Int) : (t.rows n).length = n.toNat := tab_length _ _

theorem rows_congr {t t' : Text} {n : Int} (h : ∀ r, 0 ≤ r → r < n → t'.row r = t.row r) :
    t'.rows n = t.rows n :=
  tab_congr fun i hi => h i (by omega) (by omega)

theorem rows_row {t t' : Text} {n i : Int} (h : t'.rows n = t.rows n) (h0 : 0 ≤ i) (h1 : i < n) :
    t'.row i = t.row i := by
  have hget := congrArg (fun l => l[i.toNat]?) h
  dsimp only [Text.rows] at hget
  rw [tab_getElem?, tab_getElem?, if_pos (by omega), if_pos (by omega)] at hget
  have hrow := Option.some.inj hget
  rwa [show ((i.toNat : Nat) : Int) = i by omega] at hrow

theorem rows_succ (t : Text) {n : Int} (h0 : 0 ≤ n) : t.rows (n + 1) = t.rows n ++ [t.row n] := by
  obtain ⟨m, rfl⟩ : ∃ m : Nat, n = m := ⟨n.toNat, by omega⟩
  rw [Text.rows, Text.rows, tab, tab, Int.toNat_natCast, show ((m : Int) + 1).toNat =
    m + 1 by omega,
    List.range_succ, List.map_append, List.map_singleton]

/-- The table holds the lines read so far, the last one at `li`. -/
structure Reading (t : Text) (li : Int) (p : Lines UInt8) : Prop where
  lo : 0 ≤ li
  hi : li < 256
  done : t.rows li = p.done
  cur : t.row li = p.cur
  len : ∀ i, 0 ≤ i → i ≤ li → 0 ≤ t.lens i ∧ t.lens i ≤ 255

namespace Reading

variable {t : Text} {li : Int} {p : Lines UInt8} (h : Reading t li p)

include h

theorem count : (p.done.length : Int) = li := by
  have hlo := h.lo
  rw [← h.done, rows_length]
  omega

theorem width : (p.cur.length : Int) = t.lens li := by
  have hlen := h.len li h.lo (Int.le_refl li)
  rw [← h.cur, row_def, tab_length]
  omega

/-- A newline starts another line. -/
theorem newline (hli : li + 1 < 256) :
    Reading { t with lens := put t.lens (li + 1) 0 } (li + 1) ⟨p.done ++ [p.cur], []⟩ := by
  have hlo := h.lo
  have hrow : ∀ r, r < li + 1 → Text.row { t with lens := put t.lens (li + 1) 0 } r = t.row r :=
    fun r hr => row_ext (put_of_ne (by omega)) fun _ _ _ => rfl
  refine ⟨by omega, hli, ?_, row_nil (put_self _ _ _), fun i hi0 hi1 => ?_⟩
  · rw [rows_succ _ h.lo, hrow li (by omega), rows_congr fun r _ hr => hrow r (by omega),
      h.done, h.cur]
  · dsimp only
    by_cases hi : i = li + 1
    · rw [hi, put_self]
      omega
    · rw [put_of_ne hi]
      exact h.len i hi0 (by omega)

/-- A character goes behind the line. -/
theorem char (c : UInt8) (hl : t.lens li < 255) :
    Reading ⟨fun a b => if a = li ∧ b = t.lens li then c else t.lines a b,
      put t.lens li (t.lens li + 1)⟩ li
      ⟨p.done, p.cur ++ [c]⟩ := by
  obtain ⟨hl0, -⟩ := h.len li h.lo (Int.le_refl li)
  refine ⟨h.lo, h.hi, ?_, ?_, fun i hi0 hi1 => ?_⟩
  · rw [← h.done]
    refine rows_congr fun r _ hr => row_ext (put_of_ne (by omega)) fun j _ _ => ?_
    dsimp only
    rw [if_neg (by omega)]
  · rw [← h.cur, row_def t, show [c] = tab 1 (fun _ => c) from rfl, tab_append]
    refine row_eq_tab ?_ fun j hj => ?_
    · dsimp only
      rw [put_self]
      omega
    · dsimp only
      by_cases hj1 : j < (t.lens li).toNat
      · rw [if_pos hj1, if_neg (by omega)]
      · rw [if_neg hj1, if_pos (by omega)]
  · dsimp only
    by_cases hi : i = li
    · rw [hi, put_self]
      omega
    · rw [put_of_ne hi]
      exact h.len i hi0 hi1

end Reading

/-- **The loop of `load` reads lines.** -/
theorem loadLoop_reads : ∀ (bytes : List UInt8) {li : Int} {t : Text} {p : Lines UInt8},
    Reading t li p →
    ∃ li' t', loadLoop bytes li t = some (li', t') ∧
      Reading t' li' (bytes.foldl (fun p c => p.read 10 256 255 c) p)
  | [], li, t, _, h => ⟨li, t, rfl, h⟩
  | c :: bytes, li, t, p, h => by
    have hcount := h.count
    have hwidth := h.width
    have hlo := h.lo
    have hhi := h.hi
    rw [loadLoop, List.foldl_cons, Lines.read]
    by_cases hc : c = 10
    · rw [if_pos hc, if_pos hc]
      by_cases hli : li + 1 < 256
      · rw [if_pos hli, if_pos (by omega), bind_of_eq (setLen_eq _ (by omega) hli)]
        exact loadLoop_reads bytes (h.newline hli)
      · rw [if_neg hli, if_neg (by omega)]
        exact loadLoop_reads bytes h
    · obtain ⟨hl0, hl1⟩ := h.len li h.lo (Int.le_refl li)
      rw [if_neg hc, if_neg hc, bind_of_eq (len_eq h.lo h.hi)]
      by_cases hl : t.lens li < 255
      · rw [if_pos hl, if_pos (by omega), bind_of_eq (setChar_eq _ h.lo h.hi hl0 (by omega)),
          bind_of_eq (setLen_eq _ h.lo h.hi)]
        exact loadLoop_reads bytes (h.char c hl)
      · rw [if_neg hl, if_neg (by omega)]
        exact loadLoop_reads bytes h

/-! ## The whole function -/

/-- The lines of a file as the editor has them. -/
def loaded (bytes : List UInt8) : List (List UInt8) :=
  let p := readLines 10 256 255 bytes
  if bytes.getLast? = some 10 ∧ p.done ≠ [] then p.done else p.done ++ [p.cur]

/-- `load` succeeds and the buffer shows the lines of the file; an error reads as an empty
file. -/
theorem load_reads (file : Option (List UInt8)) (k : Keo) : ∃ t n msg,
    load file k = some { k with
      text := t, nlines := n, cx := 0, cy := 0, top := 0, dirty := false,
      mode := .normal, msg := msg } ∧
    msg 0 = 0 ∧ 1 ≤ n ∧ n ≤ 256 ∧ (∀ i, 0 ≤ i → i < n → 0 ≤ t.lens i ∧ t.lens i ≤ 255) ∧
    t.rows n = loaded (file.getD []) := by
  have hstart : Reading { k.text with lens := put k.text.lens 0 0 } 0 ⟨[], []⟩ := by
    refine ⟨Int.le_refl 0, by omega, rfl, row_nil (put_self k.text.lens 0 0), fun i hi0 hi1 => ?_⟩
    rw [show i = 0 by omega]
    dsimp only
    rw [put_self]
    omega
  have hempty : Text.rows { k.text with lens := put k.text.lens 0 0 } 1 = loaded [] := by
    rw [show (1 : Int) = 0 + 1 from rfl, rows_succ _ (Int.le_refl 0), hstart.done, hstart.cur]
    rfl
  unfold load
  rw [bind_of_eq (setLen_eq _ (by omega) (by omega)), bind_of_eq (setAt_eq (by omega) (by omega))]
  cases file with
  | none =>
    exact ⟨_, _, _, rfl, put_self _ _ _, by omega, by omega,
      fun i hi0 hi1 => hstart.len i hi0 (by omega), hempty⟩
  | some bytes =>
    dsimp only
    by_cases hb : bytes = []
    · rw [if_pos hb, hb]
      exact ⟨_, _, _, rfl, put_self _ _ _, by omega, by omega,
        fun i hi0 hi1 => hstart.len i hi0 (by omega), hempty⟩
    · obtain ⟨li, t, hrun, hreads⟩ := loadLoop_reads bytes hstart
      have hlo := hreads.lo
      have hhi := hreads.hi
      have hcount := hreads.count
      rw [if_neg hb, bind_of_eq hrun]
      dsimp only
      have hiff : (bytes.getLast? = some 10 ∧ li + 1 > 1) ↔
          (bytes.getLast? = some 10 ∧ (readLines 10 256 255 bytes).done ≠ []) := by
        refine and_congr_right fun _ => ?_
        rw [← List.length_pos_iff]
        unfold readLines
        omega
      by_cases hlast : bytes.getLast? = some 10 ∧ li + 1 > 1
      · rw [if_pos hlast]
        refine ⟨t, li + 1 - 1, _, rfl, put_self _ _ _, by omega, by omega,
          fun i hi0 hi1 => hreads.len i hi0 (by omega), ?_⟩
        rw [Int.add_sub_cancel, hreads.done]
        exact (if_pos (hiff.mp hlast)).symm
      · rw [if_neg hlast]
        refine ⟨t, li + 1, _, rfl, put_self _ _ _, by omega, by omega,
          fun i hi0 hi1 => hreads.len i hi0 (by omega), ?_⟩
        rw [rows_succ t hreads.lo, hreads.done, hreads.cur]
        exact (if_neg (mt hiff.mpr hlast)).symm

/-! ## Saving -/

/-- The lines `i` to `i + n - 1`. -/
def Text.rowsFrom (t : Text) (i : Int) (n : Nat) : List (List UInt8) := tab n fun j => t.row (i + j)

theorem rowsFrom_succ (t : Text) (i : Int) (n : Nat) :
    t.rowsFrom i (n + 1) = t.row i :: t.rowsFrom (i + 1) n := by
  unfold Text.rowsFrom tab
  rw [List.range_succ_eq_map, List.map_cons, List.map_map]
  congr 1
  · rw [Int.natCast_zero, Int.add_zero]
  · refine List.map_congr_left fun j _ => ?_
    show t.row (i + ((j + 1 : Nat) : Int)) = t.row (i + 1 + j)
    congr 1
    omega

theorem rowsFrom_zero (t : Text) (n : Int) : t.rowsFrom 0 n.toNat = t.rows n :=
  tab_congr fun j _ => by rw [Int.zero_add]

theorem collect_eq {t : Text} {m : Int} (hm : m ≤ 256)
    (hlen : ∀ i, 0 ≤ i → i < m → 0 ≤ t.lens i ∧ t.lens i ≤ 255) :
    ∀ (n : Nat) {i : Int} {buf : List UInt8}, 0 ≤ i → i + n ≤ m → buf.length ≤ 4096 →
      collect n i buf t =
        some (if (buf ++ joinLines 10 (t.rowsFrom i n)).length ≤ 4096 then
          some (buf ++ joinLines 10 (t.rowsFrom i n)) else none)
  | 0, i, buf, _, _, hbuf => by
    have hnil : buf ++ joinLines 10 (t.rowsFrom i 0) = buf := List.append_nil buf
    rw [collect, hnil, if_pos hbuf]
  | n + 1, i, buf, h0, hi, hbuf => by
    obtain ⟨hl0, hl1⟩ := hlen i h0 (by omega)
    have hline : (List.range (t.lens i).toNat).mapM (fun (j : Nat) => t.char i j) =
      some (t.row i) := by
      refine mapM_of_eq fun j hj => char_eq h0 (by omega) (by omega) ?_
      have := List.mem_range.mp hj
      omega
    have hrow : (t.row i).length = (t.lens i).toNat := tab_length _ _
    have hnext : buf ++ joinLines 10 (t.rowsFrom i (n + 1))
        = (buf ++ t.row i ++ [10]) ++ joinLines 10 (t.rowsFrom (i + 1) n) := by
      rw [rowsFrom_succ, joinLines_cons]
      simp
    have hmore : (buf ++ t.row i ++ [10]).length = buf.length + (t.lens i).toNat + 1 := by
      rw [List.length_append, List.length_append, hrow]
      rfl
    rw [collect, bind_of_eq (len_eq h0 (by omega)), hnext]
    by_cases hfull : (buf.length : Int) + t.lens i + 1 > fileMax
    · rw [if_pos hfull, if_neg]
      rw [List.length_append, hmore]
      unfold fileMax at hfull
      omega
    · rw [if_neg hfull, bind_of_eq hline]
      unfold fileMax at hfull
      exact collect_eq hm hlen n (by omega) (by omega) (by omega)

/-- What `save` does: nothing without a file name, an error for more than 4096 bytes, and
otherwise the answer of `sys_fwrite` to all lines. -/
theorem save_eq {k : Keo} (hlo : 1 ≤ k.nlines) (hhi : k.nlines ≤ 256)
    (hlen : ∀ i, 0 ≤ i → i < k.nlines → 0 ≤ k.text.lens i ∧ k.text.lens i ≤ 255) (r : Int) :
    save r k = some (if k.fname 0 = 0 then (-99, k, none)
      else if (joinLines 10 (k.text.rows k.nlines)).length ≤ 4096 then
        (r.bmod (2 ^ 32), if r = 0 then { k with dirty := false } else k,
          some (joinLines 10 (k.text.rows k.nlines)))
      else (fsFull, k, none)) := by
  have hcollect := @collect_eq k.text k.nlines hhi hlen k.nlines.toNat 0 [] (Int.le_refl 0)
    (by omega)
    (Nat.zero_le _)
  rw [List.nil_append, rowsFrom_zero] at hcollect
  unfold save
  rw [bind_of_eq (getAt_eq (by omega) (by omega))]
  by_cases hname : k.fname 0 = 0
  · rw [if_pos hname, if_pos hname]
  · rw [if_neg hname, if_neg hname, bind_of_eq hcollect]
    by_cases hfits : (joinLines 10 (k.text.rows k.nlines)).length ≤ 4096
    · rw [if_pos hfits, if_pos hfits]
    · rw [if_neg hfits, if_neg hfits]

end InaneOS.User
