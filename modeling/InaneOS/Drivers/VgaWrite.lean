import InaneOS.Drivers.Vga

/-!
# Writing on the screen

Where `term_putc` puts an ordinary character and what it leaves behind. The place is the
displayed cursor (`place`), which a pending line break puts at the start of the next row;
`termPutc_ordinary` is the whole effect while nothing scrolls.

Two results rest on it. A backspace takes the character back unless it was written in the
last column: there the pending break is resolved before the backspace is looked at
(`backspaceUndoes_iff`). And a string that fits into its row changes the cells of that
row only (`write_row`), so rows can be painted in any order (`paintRows_perm`).
-/

namespace InaneOS.Drivers

/-- The characters with a case of their own: newline, return, backspace and tab. -/
def IsControl (c : UInt8) : Prop := c = 10 ∨ c = 13 ∨ c = 8 ∨ c = 9

/-- `term_putc(c)` calls `scroll`: when the pending line break comes, or at the end. -/
def Scrolls (c : UInt8) (t : Term) : Prop :=
  (t.wrap = true ∧ c ≠ 10 ∧ c ≠ 13 ∧ t.row + 1 ≥ 25) ∨ (putcSwitch c (wrapFirst c t)).row ≥ 25

instance (c : UInt8) (t : Term) : Decidable (Scrolls c t) := by
  unfold Scrolls
  infer_instance

/-- The row and the column of the displayed cursor. -/
def Term.place (t : Term) : Int × Int := if t.wrap then (t.row + 1, 0) else (t.row, t.col)

/-- The cell of the displayed cursor. -/
def Term.at (t : Term) : Int := t.place.1 * 80 + t.place.2

theorem updateCursor_cursor (t : Term) : (updateCursor t).cursor = (t.at % 65536).toNat := by
  unfold updateCursor Term.at Term.place
  cases t.wrap with
  | false => rfl
  | true => simp only [if_true, Int.add_zero]

section

variable {t : Term} (h : TermInv t)
include h

/-- Only behind the last column is a line break pending. -/
theorem TermInv.wrap_false (hc : t.col ≠ 80) : t.wrap = false := by
  rw [← Bool.not_eq_true, h.wrap_iff]
  exact hc

theorem TermInv.place_col : 0 ≤ t.place.2 ∧ t.place.2 < 80 := by
  have h0 := h.col_nonneg
  have h80 := h.col_le
  unfold Term.place
  by_cases hw : t.wrap = true
  · rw [if_pos hw]
    exact ⟨Int.le_refl 0, show (0 : Int) < 80 by decide⟩
  · have hne : t.col ≠ 80 := fun he => hw (h.wrap_iff.mpr he)
    rw [if_neg hw]
    exact ⟨h0, show t.col < 80 by omega⟩

theorem TermInv.place_row (hs : ¬ (t.wrap = true ∧ t.row = 24)) :
    0 ≤ t.place.1 ∧ t.place.1 < 25 := by
  have h0 := h.row_nonneg
  have h25 := h.row_lt
  unfold Term.place
  by_cases hw : t.wrap = true
  · have hne : t.row ≠ 24 := fun he => hs ⟨hw, he⟩
    rw [if_pos hw]
    exact ⟨show 0 ≤ t.row + 1 by omega, show t.row + 1 < 25 by omega⟩
  · rw [if_neg hw]
    exact ⟨h0, h25⟩

/-- Before an ordinary character or a backspace the position goes to the displayed cursor. -/
theorem wrapFirst_place {c : UInt8} (hn : c ≠ 10) (hr : c ≠ 13)
    (hs : ¬ (t.wrap = true ∧ t.row = 24)) :
    wrapFirst c t = { t with wrap := false, row := t.place.1, col := t.place.2 } := by
  have h25 := h.row_lt
  unfold wrapFirst Term.place
  cases hw : t.wrap with
  | false =>
    rw [if_neg (fun hc => absurd hc.1 (by simp)), if_neg (by decide), ← hw]
  | true =>
    have hne : t.row ≠ 24 := fun he => hs ⟨hw, he⟩
    rw [if_pos ⟨rfl, hn, hr⟩, scrollIfFull, if_neg (show ¬ t.row + 1 ≥ 25 by omega)]
    simp only [if_true]

end

/-- On the screen nothing scrolls. -/
theorem scrollIfFull_eq {t : Term} (h : t.row < 25) : scrollIfFull t = t := by
  rw [scrollIfFull, if_neg (by omega)]

/-- An ordinary character in the `switch`. -/
theorem putcSwitch_ordinary {c : UInt8} (hc : ¬ IsControl c) {t : Term} (hw : t.wrap = false) :
    putcSwitch c t = { t with
      cells := fun j => if j = t.row * 80 + t.col then t.cell c else t.cells j
      touched := t.touched ++ [t.row * 80 + t.col]
      col := t.col + 1, wrap := decide (t.col + 1 ≥ 80) } := by
  unfold IsControl at hc
  push Not at hc
  obtain ⟨hn, hr, hb, ht⟩ := hc
  unfold putcSwitch
  rw [if_neg hn, if_neg hr, if_neg hb, if_neg ht]
  by_cases hend : t.col + 1 ≥ 80
  · rw [if_pos (show (vgaSet (t.row * 80 + t.col) (t.cell c) t).col + 1 ≥ 80 from hend),
      decide_eq_true hend]
    rfl
  · rw [if_neg (show ¬ (vgaSet (t.row * 80 + t.col) (t.cell c) t).col + 1 ≥ 80 from hend),
      decide_eq_false hend, ← hw]
    rfl

/-- The only way an ordinary character scrolls the screen. -/
theorem scrolls_ordinary {c : UInt8} (hc : ¬ IsControl c) {t : Term} (h : TermInv t) :
    Scrolls c t ↔ t.wrap = true ∧ t.row = 24 := by
  have hn : c ≠ 10 := fun he => hc (Or.inl he)
  have hr : c ≠ 13 := fun he => hc (Or.inr (Or.inl he))
  have h25 := h.row_lt
  constructor
  · intro hs
    by_contra hno
    rcases hs with ⟨hw, -, -, hrow⟩ | hrow
    · exact hno ⟨hw, by omega⟩
    · rw [wrapFirst_place h hn hr hno, putcSwitch_ordinary hc rfl] at hrow
      have := (h.place_row hno).2
      dsimp only at hrow
      omega
  · intro hs
    obtain ⟨hw, hrow⟩ := hs
    exact Or.inl ⟨hw, hn, hr, by omega⟩

/-- **An ordinary character** goes to the displayed cursor, with the current attribute. -/
theorem termPutc_ordinary {c : UInt8} (hc : ¬ IsControl c) {t : Term} (h : TermInv t)
    (hs : ¬ Scrolls c t) :
    termPutc c t = updateCursor { t with
      cells := fun j => if j = t.at then t.cell c else t.cells j
      touched := t.touched ++ [t.at]
      row := t.place.1, col := t.place.2 + 1, wrap := decide (t.place.2 + 1 ≥ 80) } := by
  have hno := mt (scrolls_ordinary hc h).mpr hs
  have hrow := (h.place_row hno).2
  have hn : c ≠ 10 := fun he => hc (Or.inl he)
  have hr : c ≠ 13 := fun he => hc (Or.inr (Or.inl he))
  unfold termPutc
  rw [wrapFirst_place h hn hr hno, putcSwitch_ordinary hc rfl, scrollIfFull_eq hrow]
  rfl

/-! ## Backspace -/

/-- The cell in which `term_putc(c)` writes an ordinary `c`. -/
def writtenCell (c : UInt8) (t : Term) : Int :=
  let t := wrapFirst c t
  t.row * 80 + t.col

/-- A backspace takes `c` back: the cursor is displayed where it was before `c`, the cell of
`c` is blank and every other cell as it was. -/
structure BackspaceUndoes (c : UInt8) (t : Term) : Prop where
  cursor : (termPutc 8 (termPutc c t)).cursor = (updateCursor t).cursor
  blank : (termPutc 8 (termPutc c t)).cells (writtenCell c t) = t.cell 32
  others : ∀ i, i ≠ writtenCell c t → (termPutc 8 (termPutc c t)).cells i = t.cells i

/-- A backspace with no line break pending. -/
theorem termPutc_backspace {t : Term} (hw : t.wrap = false) (hrow : t.row < 25) (hcol : 0 < t.col) :
    termPutc 8 t = updateCursor { t with
      cells := fun j => if j = t.row * 80 + (t.col - 1) then t.cell 32 else t.cells j
      touched := t.touched ++ [t.row * 80 + (t.col - 1)]
      col := t.col - 1 } := by
  have hfirst : wrapFirst 8 t = t := by
    rw [wrapFirst, if_neg (fun hc => absurd (hw.symm.trans hc.1) (by simp))]
  have hswitch : putcSwitch 8 t = { t with
      cells := fun j => if j = t.row * 80 + (t.col - 1) then t.cell 32 else t.cells j
      touched := t.touched ++ [t.row * 80 + (t.col - 1)]
      col := t.col - 1 } := by
    unfold putcSwitch
    rw [if_neg (by decide), if_neg (by decide), if_pos rfl, if_neg (ne_true_of_eq_false hw),
      if_pos hcol]
    rfl
  rw [termPutc, hfirst, hswitch]
  exact congrArg updateCursor (scrollIfFull_eq hrow)

/-- With a line break pending the backspace comes to the start of the next row and stops. -/
theorem termPutc_backspace_wrap {t : Term} (h0 : 0 ≤ t.row) (h25 : t.row < 25)
    (hw : t.wrap = true) : (termPutc 8 t).cursor % 80 = 0 := by
  obtain ⟨u, hfirst, hrow0, hrow, hcol, hwrap⟩ : ∃ u, wrapFirst 8 t = u ∧ 0 ≤ u.row ∧ u.row < 25 ∧
      u.col = 0 ∧ u.wrap = false := by
    refine ⟨_, rfl, ?_⟩
    rw [wrapFirst, if_pos ⟨hw, by decide, by decide⟩]
    unfold scrollIfFull
    split
    · obtain ⟨h1, h2, h3, -⟩ := scroll_spec { t with wrap := false, col := 0, row := t.row + 1 }
      rw [h1, h2, h3]
      exact ⟨by decide, by decide, rfl, rfl⟩
    · next hle =>
      have hlt : t.row + 1 < 25 := Int.not_le.mp hle
      exact ⟨show 0 ≤ t.row + 1 by omega, hlt, rfl, rfl⟩
  have hswitch : putcSwitch 8 u = u := by
    unfold putcSwitch
    rw [if_neg (by decide), if_neg (by decide), if_pos rfl, hwrap]
    simp only [Bool.false_eq_true, if_false, hcol, gt_iff_lt, Int.lt_irrefl]
  have hcur : (termPutc 8 t).cursor = (u.row * 80 % 65536).toNat := by
    rw [termPutc, hfirst, hswitch, scrollIfFull_eq hrow, updateCursor_cursor, Term.at, Term.place,
      hwrap, if_neg (by decide)]
    dsimp only
    rw [hcol, Int.add_zero]
  have hsmall : u.row * 80 % 65536 = u.row * 80 := Int.emod_eq_of_lt (by omega) (by omega)
  rw [hcur, hsmall]
  omega

theorem TermInv.place_lt {t : Term} (h : TermInv t) (h79 : t.col ≠ 79) : t.place.2 + 1 < 80 := by
  have hle := h.col_le
  unfold Term.place
  split
  · show (0 : Int) + 1 < 80
    decide
  · next hw =>
    have hne : t.col ≠ 80 := fun he => hw (h.wrap_iff.mpr he)
    show t.col + 1 < 80
    omega

section Undo

variable {c : UInt8} {t : Term}

theorem TermInv.writtenCell_eq (h : TermInv t) (hc : ¬ IsControl c) (hs : ¬ Scrolls c t) :
    writtenCell c t = t.at := by
  have hn : c ≠ 10 := fun he => hc (Or.inl he)
  have hr : c ≠ 13 := fun he => hc (Or.inr (Or.inl he))
  rw [writtenCell, wrapFirst_place h hn hr (mt (scrolls_ordinary hc h).mpr hs)]
  rfl

/-- The line break that waits behind the last column comes before the backspace. -/
theorem TermInv.not_undoes (h : TermInv t) (hc : ¬ IsControl c) (hs : ¬ Scrolls c t)
    (h79 : t.col = 79) : ¬ BackspaceUndoes c t := by
  intro hu
  have hrow := h.place_row (mt (scrolls_ordinary hc h).mpr hs)
  have hputc := termPutc_ordinary hc h hs
  have hw := h.wrap_false (by omega)
  have hplace : t.place = (t.row, 79) := by rw [Term.place, hw, if_neg (by decide), h79]
  have hback : (termPutc 8 (termPutc c t)).cursor % 80 = 0 := by
    apply termPutc_backspace_wrap
    · rw [hputc]
      exact hrow.1
    · rw [hputc]
      exact hrow.2
    · rw [hputc, hplace]
      rfl
  rw [hu.cursor, updateCursor_cursor, Term.at, hplace] at hback
  have h0 := h.row_nonneg
  have h25 := h.row_lt
  dsimp only at hback
  omega

theorem TermInv.undoes (h : TermInv t) (hc : ¬ IsControl c) (hs : ¬ Scrolls c t)
    (h79 : t.col ≠ 79) : BackspaceUndoes c t := by
  have hrow := h.place_row (mt (scrolls_ordinary hc h).mpr hs)
  have hcol := h.place_col
  have hlt := h.place_lt h79
  have hcell := h.writtenCell_eq hc hs
  have hputc := termPutc_ordinary hc h hs
  have hwrap : (termPutc c t).wrap = false := by
    rw [hputc]
    exact decide_eq_false (by omega)
  have hback := termPutc_backspace hwrap (by rw [hputc]; exact hrow.2)
    (by rw [hputc]; show 0 < t.place.2 + 1; omega)
  -- the cell in front of the cursor is the one just written
  have hat : (termPutc c t).row * 80 + ((termPutc c t).col - 1) = t.at := by
    rw [hputc]
    show t.place.1 * 80 + (t.place.2 + 1 - 1) = t.place.1 * 80 + t.place.2
    omega
  refine ⟨?_, ?_, fun i hi => ?_⟩
  · rw [hback, updateCursor_cursor, updateCursor_cursor, Term.at, Term.place]
    dsimp only
    rw [hwrap, if_neg (by decide)]
    dsimp only
    rw [hat]
  · rw [hback, hcell, hat]
    show (if t.at = t.at then (termPutc c t).cell 32 else (termPutc c t).cells t.at) = t.cell 32
    rw [if_pos rfl, hputc]
    rfl
  · rw [hcell] at hi
    rw [hback, hat]
    show (if i = t.at then (termPutc c t).cell 32 else (termPutc c t).cells i) = t.cells i
    rw [if_neg hi, hputc]
    show (if i = t.at then t.cell c else t.cells i) = t.cells i
    rw [if_neg hi]

end Undo

/-- **A backspace takes a typed character back**, in every state the terminal reaches, exactly
when the character does not go to the last column. -/
theorem backspaceUndoes_iff (cells : Int → UInt16) (cursor : Nat) (ks : List TermCall) (c : UInt8)
    (hc : 32 ≤ c ∧ c < 127) :
    let t := ks.foldl (fun t k => k.run t) (Term.init cells cursor)
    ¬ Scrolls c t → (BackspaceUndoes c t ↔ t.col ≠ 79) := by
  intro t hs
  have h : TermInv t := (init_inv cells cursor).calls ks
  have hprint : ¬ IsControl c := by
    intro hctl
    rcases hctl with rfl | rfl | rfl | rfl <;> exact absurd hc.1 (by decide)
  constructor
  · intro hu h79
    exact h.not_undoes hprint hs h79 hu
  · intro h79
    exact h.undoes hprint hs h79

/-- `A` at the start of the screen. -/
theorem backspaceUndoes_iff_start :
    BackspaceUndoes 65 ([TermCall.goto 0 5].foldl (fun t k => k.run t)
      (Term.init (fun _ => 0) 0)) :=
  (backspaceUndoes_iff (fun _ => 0) 0 [.goto 0 5] 65 (by decide) (by decide)).mpr (by decide)

/-- In column 79 the `A` stays and the cursor goes to the next row. -/
theorem backspace_last_column :
    let t := [TermCall.goto 0 79].foldl (fun t k => k.run t) (Term.init (fun _ => 0) 0)
    ¬ Scrolls 65 t ∧ ¬ BackspaceUndoes 65 t ∧
      (updateCursor t).cursor = 79 ∧ (termPutc 8 (termPutc 65 t)).cursor = 80 ∧
      (termPutc 8 (termPutc 65 t)).cells 79 = 0x0F41 := by
  intro t
  have hcursor : (termPutc 8 (termPutc 65 t)).cursor ≠ (updateCursor t).cursor := by decide
  exact ⟨by decide, fun hu => hcursor hu.cursor, by decide, by decide, by decide⟩

/-! ## Painting a row -/

/-- The bytes `s` are in the cells from `(r, c)` on with the attribute of `t`, and nothing else
has changed in memory. -/
structure Painted (r c : Int) (s : List UInt8) (t t' : Term) : Prop where
  cells : ∀ (i : Nat) (hi : i < s.length), t'.cells (r * 80 + (c + i)) = t.cell s[i]
  others : ∀ j, (∀ i : Nat, i < s.length → j ≠ r * 80 + (c + i)) → t'.cells j = t.cells j
  attr : t'.attr = t.attr

/-- No byte of `s` scrolls the screen. -/
def NoScroll (s : List UInt8) (t : Term) : Prop :=
  ∀ before b after, s = before ++ b :: after → ¬ Scrolls b (termWrite before t)

theorem Term.cell_congr {t t' : Term} (h : t'.attr = t.attr) (c : UInt8) :
    t'.cell c = t.cell c := by
  rw [Term.cell, Term.cell, h]

theorem termWrite_cons (b : UInt8) (s : List UInt8) (t : Term) :
    termWrite (b :: s) t = termWrite s (termPutc b t) := rfl

/-- A string that ends within its row. Only behind its last byte can a line break be pending,
and then there is no byte left to make it happen. -/
theorem write_row : ∀ (s : List UInt8) {t : Term}, TermInv t → t.col + s.length ≤ 80 →
    (∀ b ∈ s, ¬ IsControl b) → Painted t.row t.col s t (termWrite s t) ∧ NoScroll s t
  | [], t, _, _, _ =>
    ⟨⟨fun i hi => absurd hi (Nat.not_lt_zero i), fun _ _ => rfl, rfl⟩, fun before b after he => by
      simp at he⟩
  | b :: s, t, h, hlen, hs => by
    rw [List.length_cons] at hlen
    have hb := hs b (by simp)
    have hw := h.wrap_false (by omega)
    have hno : ¬ Scrolls b t := fun hc =>
      absurd (((scrolls_ordinary hb h).mp hc).1.symm.trans hw) (by decide)
    have hat : t.at = t.row * 80 + t.col := by rw [Term.at, Term.place, hw, if_neg (by decide)]
    have hplace : t.place = (t.row, t.col) := by rw [Term.place, hw, if_neg (by decide)]
    have hput := termPutc_ordinary hb h hno
    have hrow : (termPutc b t).row = t.row := by
      rw [hput]
      exact congrArg Prod.fst hplace
    have hcol : (termPutc b t).col = t.col + 1 := by
      rw [hput]
      exact congrArg (fun p => Prod.snd p + 1) hplace
    have hattr : (termPutc b t).attr = t.attr := by
      rw [hput]
      rfl
    have hcells : ∀ j, (termPutc b t).cells j =
        if j = t.row * 80 + t.col then t.cell b else t.cells j := by
      intro j
      rw [hput, ← hat]
      rfl
    obtain ⟨ih, ihs⟩ := write_row s (termPutc_inv b h) (by rw [hcol]; omega)
      fun b' hb' => hs b' (List.mem_cons_of_mem _ hb')
    rw [hrow, hcol] at ih
    refine ⟨⟨fun i hi => ?_, fun j hj => ?_, ih.attr.trans hattr⟩, fun before b' after he => ?_⟩
    · rw [termWrite_cons]
      cases i with
      | zero =>
        rw [ih.others _ fun k _ => by omega, hcells, if_pos (by omega)]
        rfl
      | succ i =>
        have hi' : i < s.length := Nat.lt_of_succ_lt_succ hi
        have hcell := ih.cells i hi'
        rw [Term.cell_congr hattr] at hcell
        rw [List.getElem_cons_succ, ← hcell]
        congr 1
        push_cast
        omega
    · rw [termWrite_cons, ih.others j fun k hk => ?_, hcells, if_neg ?_]
      · have hzero := hj 0 (Nat.succ_pos _)
        simpa using hzero
      · have hsucc := hj (k + 1) (Nat.succ_lt_succ hk)
        push_cast at hsucc
        omega
    · cases before with
      | nil =>
        obtain ⟨rfl, -⟩ := List.cons.inj he
        exact hno
      | cons b'' before =>
        obtain ⟨rfl, he'⟩ := List.cons.inj he
        exact ihs before b' after he'

/-- `term_goto` to a place on the screen. -/
theorem termGoto_eq {r c : Int} (hr : 0 ≤ r ∧ r < 25) (hc : 0 ≤ c ∧ c < 80) (t : Term) :
    termGoto r c t = updateCursor { t with row := r, col := c, wrap := false } := by
  obtain ⟨hr0, hr25⟩ := hr
  obtain ⟨hc0, hc80⟩ := hc
  unfold termGoto
  dsimp only
  rw [if_neg (show ¬ r < 0 by omega), if_neg (show ¬ r ≥ 25 by omega),
    if_neg (show ¬ c < 0 by omega), if_neg (show ¬ c ≥ 80 by omega)]

/-- One painted row. -/
theorem TermInv.painted {t : Term} (h : TermInv t) {r c : Int} (hr : 0 ≤ r ∧ r < 25)
    (hc : 0 ≤ c ∧ c < 80) {s : List UInt8} (hlen : c + s.length ≤ 80)
    (hs : ∀ b ∈ s, ¬ IsControl b) :
    Painted r c s t (termWrite s (termGoto r c t)) ∧ NoScroll s (termGoto r c t) := by
  have hgoto := termGoto_eq hr hc t
  have hrow : (termGoto r c t).row = r := by rw [hgoto]; rfl
  have hcol : (termGoto r c t).col = c := by rw [hgoto]; rfl
  have hcells : (termGoto r c t).cells = t.cells := rfl
  have hattr : (termGoto r c t).attr = t.attr := rfl
  obtain ⟨hp, hn⟩ := write_row s (termGoto_inv r c h) (by rw [hcol]; exact hlen) hs
  rw [hrow, hcol] at hp
  exact ⟨⟨fun i hi => (hp.cells i hi).trans (Term.cell_congr hattr _),
    fun j hj => (hp.others j hj).trans (congrFun hcells j), hp.attr.trans hattr⟩, hn⟩

/-! ## Painting several rows -/

/-- A string that fits into its row, with its colours. -/
structure RowPaint where
  fg : Nat
  bg : Nat
  row : Int
  col : Int
  text : List UInt8
  onRow : 0 ≤ row ∧ row < 25
  onCol : 0 ≤ col ∧ col < 80
  fits : col + text.length ≤ 80
  ordinary : ∀ b ∈ text, ¬ IsControl b

/-- The calls that paint it. -/
def RowPaint.calls (p : RowPaint) : List TermCall :=
  [.setColor p.fg p.bg, .goto p.row p.col, .write p.text]

/-- A sequence of calls. -/
def runCalls (ks : List TermCall) (t : Term) : Term := ks.foldl (fun t k => k.run t) t

/-- The cells of a row painted over `cells`. -/
def RowPaint.over (cells : Int → UInt16) (p : RowPaint) : Int → UInt16 := fun j =>
  if p.row * 80 + p.col ≤ j ∧ j < p.row * 80 + p.col + p.text.length then
    (UInt8.ofNat (p.bg <<< 4 ||| (p.fg &&& 0x0F))).toUInt16 <<< 8 |||
      (p.text.getD (j - (p.row * 80 + p.col)).toNat 0).toUInt16
  else cells j

theorem runCalls_append (ks ks' : List TermCall) (t : Term) :
    runCalls (ks ++ ks') t = runCalls ks' (runCalls ks t) := List.foldl_append

/-- Painting a row is painting over its cells. -/
theorem RowPaint.calls_cells (p : RowPaint) {t : Term} (h : TermInv t) :
    (runCalls p.calls t).cells = RowPaint.over t.cells p := by
  obtain ⟨hp, -⟩ := (TermCall.run_inv (.setColor p.fg p.bg) h).painted p.onRow p.onCol p.fits
    p.ordinary
  funext j
  unfold RowPaint.over
  by_cases hj : p.row * 80 + p.col ≤ j ∧ j < p.row * 80 + p.col + p.text.length
  · obtain ⟨hlo, hhi⟩ := hj
    obtain ⟨i, hi, rfl⟩ : ∃ i : Nat, i < p.text.length ∧ j = p.row * 80 + (p.col + i) :=
      ⟨(j - (p.row * 80 + p.col)).toNat, by omega, by omega⟩
    have hidx : (p.row * 80 + (p.col + (i : Int)) - (p.row * 80 + p.col)).toNat = i := by omega
    rw [if_pos ⟨hlo, hhi⟩, hidx, List.getD_eq_getElem?_getD, List.getElem?_eq_getElem hi]
    exact hp.cells i hi
  · rw [if_neg hj]
    exact hp.others j fun i hi he => hj (by omega)

/-- Paints of different rows do not meet. -/
theorem RowPaint.over_comm {p q : RowPaint} (hpq : p.row ≠ q.row) (cells : Int → UInt16) :
    RowPaint.over (RowPaint.over cells p) q = RowPaint.over (RowPaint.over cells q) p := by
  have hp := p.onCol
  have hq := q.onCol
  have hpf := p.fits
  have hqf := q.fits
  funext j
  unfold RowPaint.over
  by_cases hj : p.row * 80 + p.col ≤ j ∧ j < p.row * 80 + p.col + p.text.length
  · have hj' : ¬ (q.row * 80 + q.col ≤ j ∧ j < q.row * 80 + q.col + q.text.length) := by omega
    rw [if_neg hj', if_pos hj, if_pos hj]
  · rw [if_neg hj, if_neg hj]

/-- The cells after several paints. -/
theorem paints_cells (ps : List RowPaint) : ∀ {t : Term}, TermInv t →
    (runCalls (ps.flatMap RowPaint.calls) t).cells = ps.foldl RowPaint.over t.cells := by
  induction ps with
  | nil => exact fun _ => rfl
  | cons p ps ih =>
    intro t h
    rw [List.flatMap_cons, runCalls_append, ih (t := runCalls p.calls t) (h.calls _),
      p.calls_cells h, List.foldl_cons]

/-- What is seen is the same: the characters with their colours, and the cursor. -/
structure SameScreen (t t' : Term) : Prop where
  cells : t.cells = t'.cells
  cursor : t.cursor = t'.cursor

/-- **Rows can be painted in any order**, and the cursor put somewhere at the end. -/
theorem paints_perm {ps ps' : List RowPaint} (hperm : ps.Perm ps')
    (hrows : ps.Pairwise fun p q => p.row ≠ q.row) {t : Term} (h : TermInv t) (r c : Int) :
    SameScreen (runCalls (ps.flatMap RowPaint.calls ++ [.goto r c]) t)
      (runCalls (ps'.flatMap RowPaint.calls ++ [.goto r c]) t) := by
  rw [runCalls_append, runCalls_append]
  refine ⟨?_, rfl⟩
  show (runCalls (ps.flatMap RowPaint.calls) t).cells =
    (runCalls (ps'.flatMap RowPaint.calls) t).cells
  rw [paints_cells ps h, paints_cells ps' h]
  refine hperm.foldl_eq' (fun p hp q hq => ?_) _
  exact List.Pairwise.forall_of_forall_of_flip
    (R := fun p q => ∀ cells, RowPaint.over (RowPaint.over cells p) q =
      RowPaint.over (RowPaint.over cells q) p)
    (fun _ _ _ => rfl) (hrows.imp fun hpq => RowPaint.over_comm hpq)
    (hrows.imp fun hpq => RowPaint.over_comm (Ne.symm hpq)) hp hq

end InaneOS.Drivers
