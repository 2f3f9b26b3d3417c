import InaneOS.Drivers.VgaWrite
import InaneOS.User.KeoInv

/-!
# What `draw` paints

`draw` paints 25 full rows, one after the other, and puts the cursor somewhere. Each row
has exactly 80 characters because `row[n++]` is checked in the model and the padding goes
up to 80. The bottom row ends in the last cell of the screen, where the line break stays
pending and nothing scrolls.
-/

namespace InaneOS.User

open InaneOS.Lib InaneOS.Drivers

/-- The system call for it: `sys_setcolor`, `sys_goto` and `sys_write`. -/
def Paint.call : Paint → TermCall
  | .setcolor fg bg => .setColor fg bg
  | .goto r c => .goto r c
  | .write row => .write row

/-! ## The rows are full -/

theorem rowPut_fits {row row' : List UInt8} {c : UInt8} (h : rowPut row c = some row') :
    row'.length ≤ 80 := by
  unfold rowPut at h
  split at h
  · cases h
    rw [List.length_append, List.length_singleton]
    omega
  · contradiction

theorem rowPuts_fits : ∀ {cs row row' : List UInt8}, row.length ≤ 80 → rowPuts row cs = some row' →
    row'.length ≤ 80
  | [], _, _, hrow, h => by
    cases h
    exact hrow
  | c :: cs, row, row', _, h => by
    obtain ⟨row₁, hput, h⟩ := Option.bind_eq_some_iff.mp h
    exact rowPuts_fits (rowPut_fits hput) h

theorem rowPad_full {row row' : List UInt8} (hrow : row.length ≤ 80)
    (h : rowPad row 80 = some row') :
    row'.length = 80 := by
  obtain ⟨row₁, hpad, hlen⟩ := rowPad_eq hrow (Nat.le_refl 80)
  rw [hpad] at h
  cases h
  omega

theorem rowCopy_fits {size : Int} {a : Int → UInt8} {w : Nat} : ∀ (n : Nat) {i : Int}
    {row row' : List UInt8}, row.length ≤ 80 → rowCopy size a w n i row = some row' →
    row'.length ≤ 80
  | 0, i, row, row', hrow, h => by
    obtain ⟨c, -, h⟩ := Option.bind_eq_some_iff.mp h
    cases h
    exact hrow
  | n + 1, i, row, row', hrow, h => by
    obtain ⟨c, -, h⟩ := Option.bind_eq_some_iff.mp h
    split at h
    · obtain ⟨row₁, hput, h⟩ := Option.bind_eq_some_iff.mp h
      exact rowCopy_fits n (rowPut_fits hput) h
    · cases h
      exact hrow

theorem drawLine_full {k : Keo} {li : Int} {row : List UInt8} (h : drawLine k li = some row) :
    row.length = 80 := by
  obtain ⟨chars, hchars, h⟩ := Option.bind_eq_some_iff.mp h
  refine rowPad_full ?_ h
  unfold lineChars at hchars
  split at hchars
  · obtain ⟨m, -, hchars⟩ := Option.bind_eq_some_iff.mp hchars
    obtain ⟨line, -, hchars⟩ := Option.bind_eq_some_iff.mp hchars
    exact rowPuts_fits (Nat.zero_le _) hchars
  · exact rowPut_fits hchars

theorem statusRow_full {k : Keo} {row : List UInt8} (h : statusRow k = some row) :
    row.length = 80 := by
  unfold statusRow at h
  rw [bind_of_eq (rowPuts_eq (by decide))] at h
  obtain ⟨r2, -, h⟩ := Option.bind_eq_some_iff.mp h
  obtain ⟨r3, -, h⟩ := Option.bind_eq_some_iff.mp h
  obtain ⟨r4, -, h⟩ := Option.bind_eq_some_iff.mp h
  obtain ⟨r5, -, h⟩ := Option.bind_eq_some_iff.mp h
  obtain ⟨r6, -, h⟩ := Option.bind_eq_some_iff.mp h
  obtain ⟨r7, -, h⟩ := Option.bind_eq_some_iff.mp h
  -- the blank before the mode bounds everything up to it
  obtain ⟨r8, hr8, h⟩ := Option.bind_eq_some_iff.mp h
  obtain ⟨r9, hr9, h⟩ := Option.bind_eq_some_iff.mp h
  exact rowPad_full (rowPuts_fits (rowPut_fits hr8) hr9) h

theorem cmdRow_full {k : Keo} {row : List UInt8} (h : cmdRow k = some row) : row.length = 80 := by
  obtain ⟨chars, hchars, h⟩ := Option.bind_eq_some_iff.mp h
  refine rowPad_full ?_ h
  unfold cmdChars at hchars
  split at hchars
  · obtain ⟨r1, hr1, hchars⟩ := Option.bind_eq_some_iff.mp hchars
    obtain ⟨cmd, -, hchars⟩ := Option.bind_eq_some_iff.mp hchars
    exact rowPuts_fits (rowPut_fits hr1) hchars
  · exact rowCopy_fits 80 (Nat.zero_le _) hchars

/-! ## The rows of a screen -/

/-- A full row without control characters. -/
def fullRow (fg bg r : Nat) (row : List UInt8) (hr : r < 25) (hlen : row.length = 80)
    (hrow : ∀ b ∈ row, ¬ IsControl b) : RowPaint :=
  { fg := fg, bg := bg, row := r, col := 0, text := row
    onRow := by omega
    onCol := by decide
    fits := by omega
    ordinary := hrow }

/-- None of the rows painted holds a newline, a return, a backspace or a tab. -/
def PlainRows (out : List Paint) : Prop := ∀ row, Paint.write row ∈ out → ∀ b ∈ row, ¬ IsControl b

/-- The rows `is` of text, painted from top to bottom. -/
theorem paintRows_paints {k : Keo} : ∀ {is : List Nat} {rows : List (List Paint)},
    is.mapM (paintRow k) = some rows → (∀ i ∈ is, i < 25) → PlainRows rows.flatten →
    ∃ ps : List RowPaint, ps.map RowPaint.row = is.map Int.ofNat ∧
      rows.flatten.map Paint.call = ps.flatMap RowPaint.calls
  | [], rows, h, _, _ => by
    cases h
    exact ⟨[], rfl, rfl⟩
  | i :: is, rows, h, hlt, hplain => by
    rw [List.mapM_cons] at h
    obtain ⟨out, hout, h⟩ := Option.bind_eq_some_iff.mp h
    obtain ⟨rows', hrows, h⟩ := Option.bind_eq_some_iff.mp h
    cases h
    obtain ⟨row, hrow, hout⟩ := Option.bind_eq_some_iff.mp hout
    cases hout
    obtain ⟨ps, hps, hcalls⟩ :=
      paintRows_paints hrows (fun j hj => hlt j (List.mem_cons_of_mem _ hj))
      fun row' hm => hplain row' (List.mem_append_right _ hm)
    refine ⟨fullRow 0x0F 0x00 i row (hlt i (by simp)) (drawLine_full hrow)
      (hplain row (by simp)) :: ps, ?_, ?_⟩
    · rw [List.map_cons, List.map_cons, hps]
      rfl
    · rw [List.flatten_cons, List.map_append, hcalls, List.flatMap_cons]
      rfl

/-- What `draw` asks of the terminal: the 25 rows in order and a place for the cursor. -/
theorem draw_paints {k k' : Keo} {out : List Paint} (h : draw k = some (k', out))
    (hplain : PlainRows out) :
    ∃ (ps : List RowPaint) (r c : Int), ps.map RowPaint.row = (List.range 25).map Int.ofNat ∧
      out.map Paint.call = ps.flatMap RowPaint.calls ++ [.goto r c] := by
  obtain ⟨k₁, -, h⟩ := Option.bind_eq_some_iff.mp h
  obtain ⟨rows, hrows, h⟩ := Option.bind_eq_some_iff.mp h
  obtain ⟨status, hstatus, h⟩ := Option.bind_eq_some_iff.mp h
  obtain ⟨cmd, hcmd, h⟩ := Option.bind_eq_some_iff.mp h
  cases h
  obtain ⟨ps, hps, hcalls⟩ := paintRows_paints hrows
    (fun i hi => Nat.lt_trans (List.mem_range.mp hi) (by decide))
    fun row hm => hplain row (List.mem_append_left _ hm)
  have hlast : ∃ r c, Paint.call (if k'.mode = .cmd then Paint.goto 24 (min (1 + k'.cmdlen) 79)
      else .goto (k'.cy - k'.top) (min k'.cx 79)) = .goto r c := by
    split <;> exact ⟨_, _, rfl⟩
  obtain ⟨r, c, hgoto⟩ := hlast
  refine ⟨ps ++ [fullRow 0x00 0x07 23 status (by decide) (statusRow_full hstatus)
    (hplain status (by simp)), fullRow 0x0F 0x00 24 cmd (by decide) (cmdRow_full hcmd)
    (hplain cmd (by simp))], r, c, ?_, ?_⟩
  · rw [List.map_append, hps]
    rfl
  · rw [List.map_append, hcalls, List.flatMap_append, List.append_assoc]
    simp only [List.map_cons, hgoto]
    rfl

/-- **Painting a row touches only that row.** In every state the terminal reaches: a string
that fits into its row and holds no control character changes exactly its cells and never
scrolls; rows painted in another order give the same screen; and what `draw` asks for is 25
different rows and a place for the cursor, so this holds of it. -/
theorem paint_rows (cells : Int → UInt16) (cursor : Nat) (ks : List TermCall) :
    let t := runCalls ks (Term.init cells cursor)
    (∀ (r c : Int) (s : List UInt8), 0 ≤ r ∧ r < 25 → 0 ≤ c ∧ c < 80 → c + s.length ≤ 80 →
      (∀ b ∈ s, ¬ IsControl b) →
      Painted r c s t (termWrite s (termGoto r c t)) ∧ NoScroll s (termGoto r c t)) ∧
    (∀ (ps ps' : List RowPaint) (r c : Int), ps.Perm ps' →
      ps.Pairwise (fun p q => p.row ≠ q.row) →
      SameScreen (runCalls (ps.flatMap RowPaint.calls ++ [.goto r c]) t)
        (runCalls (ps'.flatMap RowPaint.calls ++ [.goto r c]) t)) ∧
    ∀ (k k' : Keo) (out : List Paint), draw k = some (k', out) → PlainRows out →
      ∃ (ps : List RowPaint) (r c : Int), ps.map RowPaint.row = (List.range 25).map Int.ofNat ∧
        ∀ ps', ps.Perm ps' → SameScreen (runCalls (out.map Paint.call) t)
          (runCalls (ps'.flatMap RowPaint.calls ++ [.goto r c]) t) := by
  intro t
  have h : TermInv t := (init_inv cells cursor).calls ks
  refine ⟨fun r c s hr hc hlen hs => h.painted hr hc hlen hs, fun ps ps' r c hperm hrows =>
    paints_perm hperm hrows h r c, fun k k' out hdraw hplain => ?_⟩
  obtain ⟨ps, r, c, hps, hcalls⟩ := draw_paints hdraw hplain
  refine ⟨ps, r, c, hps, fun ps' hperm => ?_⟩
  have hrows : ps.Pairwise fun p q => p.row ≠ q.row := by
    have hmap : (ps.map RowPaint.row).Pairwise (· ≠ ·) := by
      rw [hps]
      decide
    exact List.pairwise_map.mp hmap
  rw [hcalls]
  exact paints_perm hperm hrows h r c

/-- An `A` in the last cell of the screen. -/
theorem paint_rows_corner :
    Painted 24 79 [65] (runCalls [] (Term.init (fun _ => 0) 0))
      (termWrite [65] (termGoto 24 79 (runCalls [] (Term.init (fun _ => 0) 0)))) :=
  ((paint_rows (fun _ => 0) 0 []).1 24 79 [65] (by decide) (by decide) (by decide)
    (by simp [IsControl])).1

end InaneOS.User
