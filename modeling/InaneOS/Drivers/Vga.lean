import Mathlib.Data.Int.Order.Basic
import Mathlib.Tactic.Common

/-!
# The text terminal: `drivers/vga/vga.c`

80 by 25 cells of text memory and a write position. A character in the last
column leaves the position behind it (`col = 80`) with the flag `wrap`; the line
break happens when the next character comes. Every branch of `term_putc` moves
`row`, `col` and `wrap` in its own way and the cell accesses are not checked, so
their safety rests on `TermInv`: `wrap` is set exactly in column 80.

`touched` records the index of every access to the `vga` array, reads included.
-/

namespace InaneOS.Drivers

/-- The statics of `vga.c`, the text memory, the cursor register, and the accesses made. -/
structure Term where
  cells : Int → UInt16
  row : Int
  col : Int
  wrap : Bool
  attr : UInt8
  cursor : Nat
  touched : List Int

/-- `vga[i] = v` -/
def vgaSet (i : Int) (v : UInt16) (t : Term) : Term :=
  { t with cells := fun j => if j = i then v else t.cells j, touched := t.touched ++ [i] }

/-- `vga[i] = vga[j]` -/
def vgaCopy (i j : Int) (t : Term) : Term :=
  vgaSet i (t.cells j) { t with touched := t.touched ++ [j] }

/-- `(attr << 8) | c` -/
def Term.cell (t : Term) (c : UInt8) : UInt16 := t.attr.toUInt16 <<< 8 ||| c.toUInt16

/-- `update_cursor`: the position goes to the card as an `unsigned short`. -/
def updateCursor (t : Term) : Term :=
  let pos := if t.wrap then (t.row + 1) * 80 else t.row * 80 + t.col
  { t with cursor := (pos % 65536).toNat }

/-- `for (i = 0; i < n; i++) vga[i] = vga[i + COLS];` -/
@[irreducible] def copyLoop (n : Nat) (t : Term) : Term :=
  (List.range n).foldl (fun t (i : Nat) => vgaCopy i (i + 80) t) t

/-- `for (i = a; i < a + n; i++) vga[i] = (attr << 8) | ' ';` -/
@[irreducible] def blankLoop (a n : Nat) (t : Term) : Term :=
  (List.range n).foldl (fun t (i : Nat) => vgaSet (a + i) (t.cell 32) t) t

def scroll (t : Term) : Term :=
  let t := blankLoop (24 * 80) 80 (copyLoop (24 * 80) t)
  { t with row := 24, wrap := false }

def termClear (t : Term) : Term :=
  let t := blankLoop 0 (25 * 80) t
  updateCursor { t with row := 0, col := 0, wrap := false }

/-- `if (row >= ROWS) scroll();` -/
def scrollIfFull (t : Term) : Term := if t.row ≥ 25 then scroll t else t

/-- The pending line break, which anything but a newline or a return makes happen. -/
def wrapFirst (c : UInt8) (t : Term) : Term :=
  if t.wrap ∧ c ≠ 10 ∧ c ≠ 13 then
    scrollIfFull { t with wrap := false, col := 0, row := t.row + 1 }
  else t

/-- The `switch` of `term_putc`. `col & ~3` is the multiple of 4 at or below `col`. -/
def putcSwitch (c : UInt8) (t : Term) : Term :=
  if c = 10 then { t with wrap := false, col := 0, row := t.row + 1 }
  else if c = 13 then { t with wrap := false, col := 0 }
  else if c = 8 then
    let t := if t.wrap then { t with wrap := false, col := 79 } else t
    if t.col > 0 then
      let t := { t with col := t.col - 1 }
      vgaSet (t.row * 80 + t.col) (t.cell 32) t
    else t
  else if c = 9 then
    let col := (t.col + 4) / 4 * 4
    if col ≥ 80 then { t with col := 0, row := t.row + 1 } else { t with col := col }
  else
    let t := vgaSet (t.row * 80 + t.col) (t.cell c) t
    let t := { t with col := t.col + 1 }
    if t.col ≥ 80 then { t with wrap := true } else t

def termPutc (c : UInt8) (t : Term) : Term :=
  updateCursor (scrollIfFull (putcSwitch c (wrapFirst c t)))

/-- `term_puts(s)` for the bytes of `s` before its NUL. -/
def termPuts (s : List UInt8) (t : Term) : Term := s.foldl (fun t c => termPutc c t) t

/-- `term_write(s, len)` for the `len` bytes `s`. -/
def termWrite (s : List UInt8) (t : Term) : Term := s.foldl (fun t c => termPutc c t) t

def termGoto (r c : Int) (t : Term) : Term :=
  let r := if r < 0 then 0 else r
  let r := if r ≥ 25 then 24 else r
  let c := if c < 0 then 0 else c
  let c := if c ≥ 80 then 79 else c
  updateCursor { t with row := r, col := c, wrap := false }

/-- `term_set_color(fg, bg)` for any numbers. -/
def termSetColor (fg bg : Nat) (t : Term) : Term :=
  { t with attr := UInt8.ofNat (bg <<< 4 ||| (fg &&& 0x0F)) }

inductive TermCall
  | putc (c : UInt8)
  | puts (s : List UInt8)
  | write (s : List UInt8)
  | goto (r c : Int)
  | clear
  | setColor (fg bg : Nat)

def TermCall.run : TermCall → Term → Term
  | putc c => termPutc c
  | puts s => termPuts s
  | write s => termWrite s
  | goto r c => termGoto r c
  | clear => termClear
  | setColor fg bg => termSetColor fg bg

/-- The statics as they are loaded; the memory may hold anything. -/
def Term.init (cells : Int → UInt16) (cursor : Nat) : Term := ⟨cells, 0, 0, false, 0x0F, cursor, []⟩

/-! ## Accesses -/

/-- Every access so far was to one of the 2000 cells. -/
def InBounds (t : Term) : Prop := ∀ i ∈ t.touched, 0 ≤ i ∧ i < 2000

theorem InBounds.set {t : Term} (h : InBounds t) {i : Int} (hi : 0 ≤ i ∧ i < 2000) (v : UInt16) :
    InBounds (vgaSet i v t) := by
  intro j hj
  rcases List.mem_append.mp hj with hj | hj
  · exact h j hj
  · rw [List.mem_singleton.mp hj]
    exact hi

/-- Only cells changed, and within bounds. -/
structure CellsOnly (t t' : Term) : Prop where
  row : t'.row = t.row
  col : t'.col = t.col
  wrap : t'.wrap = t.wrap
  attr : t'.attr = t.attr
  bounds : InBounds t → InBounds t'

theorem CellsOnly.refl (t : Term) : CellsOnly t t := ⟨rfl, rfl, rfl, rfl, id⟩

theorem CellsOnly.trans {t t' t'' : Term} (h : CellsOnly t t') (h' : CellsOnly t' t'') :
    CellsOnly t t'' :=
  ⟨h'.row.trans h.row, h'.col.trans h.col, h'.wrap.trans h.wrap, h'.attr.trans h.attr,
    fun hb => h'.bounds (h.bounds hb)⟩

theorem vgaSet_cellsOnly {i : Int} (hi : 0 ≤ i ∧ i < 2000) (v : UInt16) (t : Term) :
    CellsOnly t (vgaSet i v t) :=
  ⟨rfl, rfl, rfl, rfl, fun hb => hb.set hi v⟩

theorem vgaCopy_cellsOnly {i j : Int} (hi : 0 ≤ i ∧ i < 2000) (hj : 0 ≤ j ∧ j < 2000) (t : Term) :
    CellsOnly t (vgaCopy i j t) := by
  refine ⟨rfl, rfl, rfl, rfl, fun hb => InBounds.set (fun k hk => ?_) hi _⟩
  rcases List.mem_append.mp hk with hk | hk
  · exact hb k hk
  · rw [List.mem_singleton.mp hk]
    exact hj

/-- A loop over cells changes only cells. -/
theorem foldl_cellsOnly {f : Term → Nat → Term} : ∀ (is : List Nat) (t : Term),
    (∀ t i, i ∈ is → CellsOnly t (f t i)) → CellsOnly t (is.foldl f t)
  | [], t, _ => CellsOnly.refl t
  | i :: is, t, h => (h t i (by simp)).trans
      (foldl_cellsOnly is (f t i) fun t j hj => h t j (List.mem_cons_of_mem _ hj))

theorem copyLoop_cellsOnly {n : Nat} (hn : n ≤ 1920) (t : Term) : CellsOnly t (copyLoop n t) := by
  unfold copyLoop
  refine foldl_cellsOnly _ t fun t i hi => ?_
  have := List.mem_range.mp hi
  exact vgaCopy_cellsOnly (by omega) (by omega) t

theorem blankLoop_cellsOnly {a n : Nat} (hn : a + n ≤ 2000) (t : Term) :
    CellsOnly t (blankLoop a n t) := by
  unfold blankLoop
  refine foldl_cellsOnly _ t fun t i hi => ?_
  have := List.mem_range.mp hi
  exact vgaSet_cellsOnly (by omega) _ t

/-- `scroll` goes to the last row and stays inside the memory. -/
theorem scroll_spec (t : Term) : (scroll t).row = 24 ∧ (scroll t).col = t.col ∧
    (scroll t).wrap = false ∧ (InBounds t → InBounds (scroll t)) := by
  have hboth := (copyLoop_cellsOnly (Nat.le_refl _) t).trans
    (blankLoop_cellsOnly (a := 24 * 80) (n := 80) (by decide) (copyLoop (24 * 80) t))
  exact ⟨rfl, hboth.col, rfl, fun hb => hboth.bounds hb⟩

/-! ## The invariant -/

structure TermInv (t : Term) : Prop where
  row_nonneg : 0 ≤ t.row
  row_lt : t.row < 25
  col_nonneg : 0 ≤ t.col
  col_le : t.col ≤ 80
  wrap_iff : t.wrap = true ↔ t.col = 80
  bounds : InBounds t

theorem updateCursor_inv {t : Term} (h : TermInv t) : TermInv (updateCursor t) :=
  ⟨h.row_nonneg, h.row_lt, h.col_nonneg, h.col_le, h.wrap_iff, h.bounds⟩

/-- With the cursor on a cell there is no break to come. -/
theorem inRow_inv {t : Term} (hb : InBounds t) (hw : t.wrap = false) (hrow : 0 ≤ t.row ∧ t.row < 25)
    (hcol : 0 ≤ t.col ∧ t.col < 80) : TermInv t := by
  refine ⟨hrow.1, hrow.2, hcol.1, Int.le_of_lt hcol.2, ?_, hb⟩
  rw [hw]
  exact ⟨fun hf => absurd hf (by simp), fun he => by omega⟩

/-- At the start of a row. -/
theorem lineStart_inv {t : Term} (hb : InBounds t) (hw : t.wrap = false) (hc : t.col = 0)
    (h0 : 0 ≤ t.row) (hrow : t.row < 25) : TermInv t :=
  inRow_inv hb hw ⟨h0, hrow⟩ (by rw [hc]; decide)

/-- At the start of a row that may lie below the screen. -/
theorem lineStart_scroll {t : Term} (hb : InBounds t) (hw : t.wrap = false) (hc : t.col = 0)
    (h0 : 0 ≤ t.row) (hrow : t.row ≤ 25) : TermInv (scrollIfFull t) := by
  unfold scrollIfFull
  split
  · obtain ⟨h1, h2, h3, h4⟩ := scroll_spec t
    exact lineStart_inv (h4 hb) h3 (h2.trans hc) (by omega) (by omega)
  · exact lineStart_inv hb hw hc h0 (by omega)

/-- On the screen nothing scrolls. -/
theorem scrollIfFull_inv {t : Term} (h : TermInv t) : TermInv (scrollIfFull t) := by
  have := h.row_lt
  rw [scrollIfFull, if_neg (by omega)]
  exact h

/-- After the pending line break there is none, except before a newline or a return. -/
theorem wrapFirst_inv {t : Term} (h : TermInv t) (c : UInt8) :
    TermInv (wrapFirst c t) ∧ (c ≠ 10 → c ≠ 13 → (wrapFirst c t).wrap = false) := by
  have h1 := h.row_nonneg
  have h2 := h.row_lt
  unfold wrapFirst
  by_cases hw : t.wrap = true ∧ c ≠ 10 ∧ c ≠ 13
  · rw [if_pos hw]
    refine ⟨lineStart_scroll h.bounds rfl rfl (by show 0 ≤ t.row + 1; omega)
      (by show t.row + 1 ≤ 25; omega), fun _ _ => ?_⟩
    unfold scrollIfFull
    split
    · exact (scroll_spec _).2.2.1
    · rfl
  · rw [if_neg hw]
    refine ⟨h, fun hn hr => ?_⟩
    by_contra hwrap
    exact hw ⟨by simpa using hwrap, hn, hr⟩

/-- The `switch`, from a state without a pending break where it matters. -/
theorem putcSwitch_inv {t : Term} (h : TermInv t) {c : UInt8}
    (hw : c ≠ 10 → c ≠ 13 → t.wrap = false) :
    TermInv (scrollIfFull (putcSwitch c t)) := by
  have h1 := h.row_nonneg
  have h2 := h.row_lt
  have h3 := h.col_nonneg
  have h4 := h.col_le
  have hline : ∀ w, w = false →
      TermInv (scrollIfFull { t with wrap := w, col := 0, row := t.row + 1 }) := fun w hw =>
    lineStart_scroll h.bounds hw rfl (by show 0 ≤ t.row + 1; omega) (by show t.row + 1 ≤ 25; omega)
  unfold putcSwitch
  by_cases hn : c = 10
  · rw [if_pos hn]
    exact hline false rfl
  · rw [if_neg hn]
    by_cases hr : c = 13
    · rw [if_pos hr]
      exact scrollIfFull_inv (lineStart_inv h.bounds rfl rfl h1 h2)
    · have hwrap := hw hn hr
      have hcol : t.col < 80 := by
        have hne : t.col ≠ 80 := fun he => by
          rw [h.wrap_iff.mpr he] at hwrap
          exact absurd hwrap (by simp)
        omega
      rw [if_neg hr]
      by_cases hbs : c = 8
      · rw [if_pos hbs, hwrap]
        simp only [Bool.false_eq_true, if_false]
        by_cases hpos : t.col > 0
        · rw [if_pos hpos]
          refine scrollIfFull_inv (inRow_inv ?_ hwrap ⟨h1, h2⟩ ?_)
          · exact InBounds.set (t := { t with wrap := false, col := t.col - 1 }) h.bounds
              (by show 0 ≤ t.row * 80 + (t.col - 1) ∧ t.row * 80 + (t.col - 1) < 2000; omega)
              (t.cell 32)
          · show 0 ≤ t.col - 1 ∧ t.col - 1 < 80
            omega
        · rw [if_neg hpos]
          exact scrollIfFull_inv h
      · rw [if_neg hbs]
        by_cases htab : c = 9
        · rw [if_pos htab]
          dsimp only
          by_cases hge : (t.col + 4) / 4 * 4 ≥ 80
          · rw [if_pos hge]
            exact hline t.wrap hwrap
          · rw [if_neg hge]
            refine scrollIfFull_inv (inRow_inv h.bounds hwrap ⟨h1, h2⟩ ?_)
            show 0 ≤ (t.col + 4) / 4 * 4 ∧ (t.col + 4) / 4 * 4 < 80
            omega
        · rw [if_neg htab]
          have hset : InBounds (vgaSet (t.row * 80 + t.col) (t.cell c) t) :=
            InBounds.set h.bounds (by omega) _
          by_cases hend : t.col + 1 ≥ 80
          · rw [if_pos (show (vgaSet (t.row * 80 + t.col) (t.cell c) t).col + 1 ≥ 80 from hend)]
            refine scrollIfFull_inv ⟨h1, h2, ?_, ?_, ?_, hset⟩
            · show 0 ≤ t.col + 1
              omega
            · show t.col + 1 ≤ 80
              omega
            · show true = true ↔ t.col + 1 = 80
              exact ⟨fun _ => by omega, fun _ => rfl⟩
          · rw [if_neg (show ¬ (vgaSet (t.row * 80 + t.col) (t.cell c) t).col + 1 ≥ 80 from hend)]
            refine scrollIfFull_inv (inRow_inv hset hwrap ⟨h1, h2⟩ ?_)
            show 0 ≤ t.col + 1 ∧ t.col + 1 < 80
            omega

theorem termPutc_inv (c : UInt8) {t : Term} (h : TermInv t) : TermInv (termPutc c t) := by
  obtain ⟨h', hw⟩ := wrapFirst_inv h c
  exact updateCursor_inv (putcSwitch_inv h' hw)

theorem putcs_inv : ∀ (s : List UInt8) {t : Term}, TermInv t →
    TermInv (s.foldl (fun t c => termPutc c t) t)
  | [], _, h => h
  | c :: s, _, h => putcs_inv s (termPutc_inv c h)

theorem termGoto_inv (r c : Int) {t : Term} (h : TermInv t) : TermInv (termGoto r c t) := by
  unfold termGoto
  dsimp only
  refine updateCursor_inv ⟨?_, ?_, ?_, ?_, ?_, h.bounds⟩
  · dsimp only
    split <;> split <;> omega
  · dsimp only
    split <;> split <;> omega
  · dsimp only
    split <;> split <;> omega
  · dsimp only
    split <;> split <;> omega
  · dsimp only
    refine ⟨fun hf => absurd hf (by simp), fun he => ?_⟩
    split at he <;> split at he <;> omega

theorem termClear_inv {t : Term} (h : TermInv t) : TermInv (termClear t) := by
  have hclear := blankLoop_cellsOnly (a := 0) (n := 25 * 80) (by decide) t
  exact updateCursor_inv (lineStart_inv (hclear.bounds h.bounds) rfl rfl (Int.le_refl 0)
    (show (0 : Int) < 25 by decide))

theorem TermCall.run_inv (k : TermCall) {t : Term} (h : TermInv t) : TermInv (k.run t) := by
  cases k with
  | putc c => exact termPutc_inv c h
  | puts s => exact putcs_inv s h
  | write s => exact putcs_inv s h
  | goto r c => exact termGoto_inv r c h
  | clear => exact termClear_inv h
  | setColor fg bg =>
    exact ⟨h.row_nonneg, h.row_lt, h.col_nonneg, h.col_le, h.wrap_iff, h.bounds⟩

theorem TermInv.calls {t : Term} (h : TermInv t) (ks : List TermCall) :
    TermInv (ks.foldl (fun t k => k.run t) t) := by
  induction ks generalizing t with
  | nil => exact h
  | cons k ks ih => exact ih (k.run_inv h)

theorem init_inv (cells : Int → UInt16) (cursor : Nat) : TermInv (Term.init cells cursor) :=
  lineStart_inv (by simp [InBounds, Term.init]) rfl rfl (Int.le_refl 0)
    (show (0 : Int) < 25 by decide)

/-- **The terminal stays on the screen**: after any sequence of calls the position is in
range, `wrap` is set exactly behind the last column, and no access left the memory. -/
theorem term_inv (cells : Int → UInt16) (cursor : Nat) (ks : List TermCall) :
    TermInv (ks.foldl (fun t k => k.run t) (Term.init cells cursor)) := by
  exact (init_inv cells cursor).calls ks

end InaneOS.Drivers
