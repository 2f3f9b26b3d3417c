import InaneOS.User.KeoEdit

/-!
# Each edit on the page

The buffer after an edit shows the page after the same edit on lists (`Shows`), whether
the edit fits or not. `Edit` collects the edits, each with the code it stands for and the
list operation it should be; `edit_page` is the refinement.
-/

namespace InaneOS.User

open InaneOS.Lib

/-! ## Messages -/

theorem setMsgLoop_spec : ∀ (s : List UInt8) {i : Int} {msg : Int → UInt8}, 0 ≤ i → i ≤ 79 →
    ∃ i' msg', setMsgLoop s i msg = some (i', msg') ∧ 0 ≤ i' ∧ i' ≤ 79
  | [], i, msg, h0, h1 => ⟨i, msg, rfl, h0, h1⟩
  | c :: s, i, msg, h0, h1 => by
    rw [setMsgLoop]
    by_cases hi : i < 79
    · rw [if_pos hi, bind_of_eq (setAt_eq h0 (by omega))]
      exact setMsgLoop_spec s (by omega) (by omega)
    · rw [if_neg hi]
      exact ⟨i, msg, rfl, h0, h1⟩

/-- A message is cut to the buffer and ends with a NUL there. -/
theorem setMsg_spec (s : List UInt8) (k : Keo) : ∃ msg, setMsg s k = some { k with msg := msg } ∧
    ∃ i, 0 ≤ i ∧ i < 80 ∧ msg i = 0 := by
  obtain ⟨i, msg, hrun, h0, h1⟩ := @setMsgLoop_spec s 0 k.msg (by omega) (by omega)
  unfold setMsg
  rw [bind_of_eq hrun]
  dsimp only
  rw [bind_of_eq (setAt_eq h0 (by omega))]
  exact ⟨_, rfl, i, h0, by omega, put_self _ _ _⟩

/-- What is shown does not depend on the message, the mode or the flags. -/
theorem Shows.of_same {k k' : Keo} {p : Page} (h : Shows k p) (ht : k'.text = k.text)
    (hn : k'.nlines = k.nlines) (hx : k'.cx = k.cx) (hy : k'.cy = k.cy) : Shows k' p := by
  obtain ⟨h1, h2, h3, h4, h5, h6⟩ := h
  rw [← ht, ← hn] at h3 h4
  rw [← hn] at h1 h2 h5
  rw [← ht, ← hx] at h6
  rw [← hy] at h5
  exact ⟨h1, h2, h3, h4, h5, h6⟩

/-- The file name and the command are left alone, and the message is a string as it was. -/
structure Kept (k k' : Keo) : Prop where
  fname : k'.fname = k.fname
  cmd : k'.cmd = k.cmd
  cmdlen : k'.cmdlen = k.cmdlen
  msg : k'.msg = k.msg ∨ ∃ i, 0 ≤ i ∧ i < 80 ∧ k'.msg i = 0

theorem Kept.refl (k : Keo) : Kept k k := ⟨rfl, rfl, rfl, Or.inl rfl⟩

/-! ## The edits -/

/-- The line of the cursor. -/
theorem Sized.line {k : Keo} (h : Sized k) : k.page.line k.page.y = k.text.row k.cy := by
  have hy0 := h.cy0
  have hy1 := h.cy1
  have hy : ((k.cy.toNat : Nat) : Int) = k.cy := by omega
  rw [show k.page.y = k.cy.toNat from rfl, page_line (by omega), hy]

theorem insertChar_shows {k : Keo} (h : Sized k) (c : UInt8) :
    ∃ k', insertChar c k = some k' ∧ Shows k' (k.page.insert c) ∧ Kept k k' := by
  have hlo := h.lo
  have hy0 := h.cy0
  have hy1 := h.cy1
  have hx0 := h.cx0
  have hx1 := h.cx1
  obtain ⟨hl0, hl1⟩ := h.cyLen
  have hlen : (k.page.line k.page.y).length = (k.text.lens k.cy).toNat := by
    rw [h.line, row_def, tab_length]
  unfold Page.insert
  rw [hlen]
  by_cases hfit : k.text.lens k.cy < 255
  · obtain ⟨t, hrun, hlens, hrows⟩ := insertChar_spec h c hfit
    rw [if_pos (by omega)]
    refine ⟨_, hrun, ⟨h.lo, h.hi, fun i hi0 hi1 => ?_, rows_modify hy0 hrows, ?_, ?_⟩,
      ⟨rfl, rfl, rfl, Or.inl rfl⟩⟩
    · show 0 ≤ t.lens i ∧ t.lens i ≤ 255
      rw [hlens]
      have := h.len i hi0 hi1
      split <;> omega
    · show min (max k.cy 0) (k.nlines - 1) = (k.cy.toNat : Int)
      omega
    · show min (max (k.cx + 1) 0) (t.lens (k.cy.toNat : Int)) = ((k.cx.toNat + 1 : Nat) : Int)
      rw [hlens, if_pos (by omega)]
      omega
  · rw [if_neg (by omega)]
    unfold insertChar
    rw [bind_of_eq (len_eq hy0 (Int.lt_of_lt_of_le hy1 h.hi)), if_neg hfit]
    exact ⟨k, rfl, h.shows, .refl k⟩

theorem delChar_shows {k : Keo} (h : Sized k) :
    ∃ k', delChar k = some k' ∧ Shows k' k.page.erase ∧ Kept k k' := by
  have hlo := h.lo
  have hy0 := h.cy0
  have hy1 := h.cy1
  have hx0 := h.cx0
  have hx1 := h.cx1
  obtain ⟨hl0, hl1⟩ := h.cyLen
  by_cases hx : k.cx < k.text.lens k.cy
  · obtain ⟨t, hrun, hlens, hrows⟩ := delChar_spec h hx
    refine ⟨_, hrun, ⟨h.lo, h.hi, fun i hi0 hi1 => ?_, rows_modify hy0 hrows, ?_, ?_⟩,
      ⟨rfl, rfl, rfl, Or.inl rfl⟩⟩
    · show 0 ≤ t.lens i ∧ t.lens i ≤ 255
      rw [hlens]
      have := h.len i hi0 hi1
      split <;> omega
    · show min (max k.cy 0) (k.nlines - 1) = (k.cy.toNat : Int)
      omega
    · show min (max k.cx 0) (t.lens (k.cy.toNat : Int)) = (k.cx.toNat : Int)
      rw [hlens, if_pos (by omega)]
      omega
  · -- nothing is at the cursor, and nothing is erased
    have hsame : k.page.erase = k.page := by
      have hrow : (k.text.row k.cy).eraseIdx k.cx.toNat = k.text.row k.cy :=
        List.eraseIdx_of_length_le (by rw [row_def, tab_length]; omega)
      have hrows : k.text.rows k.nlines =
          (k.text.rows k.nlines).modify k.cy.toNat (fun l => l.eraseIdx k.cx.toNat) := by
        refine rows_modify hy0 fun r => ?_
        rw [hrow]
        split
        · next hr => rw [hr]
        · rfl
      show Page.mk ((k.text.rows k.nlines).modify k.cy.toNat (fun l => l.eraseIdx k.cx.toNat)) _ _ =
        _
      rw [← hrows]
      rfl
    rw [hsame]
    unfold delChar
    rw [bind_of_eq (len_eq hy0 (Int.lt_of_lt_of_le hy1 h.hi)), if_neg hx]
    exact ⟨k, rfl, h.shows, .refl k⟩

theorem enter_shows {k : Keo} (h : Sized k) :
    ∃ k', enter k = some k' ∧ Shows k' k.page.split ∧ Kept k k' := by
  have hlo := h.lo
  have hhi := h.hi
  have hy0 := h.cy0
  have hy1 := h.cy1
  have hx0 := h.cx0
  have hx1 := h.cx1
  obtain ⟨hl0, hl1⟩ := h.cyLen
  have hnum : k.page.rows.length = k.nlines.toNat := tab_length _ _
  unfold Page.split
  rw [hnum, h.line]
  by_cases hn : k.nlines < 256
  · obtain ⟨t, hrun, hlens, hrows⟩ := enter_spec h hn
    rw [if_pos (by omega)]
    refine ⟨_, hrun, ⟨?_, ?_, fun i hi0 hi1 => ?_, ?_, ?_, ?_⟩, ⟨rfl, rfl, rfl, Or.inl rfl⟩⟩
    · show 1 ≤ k.nlines + 1
      omega
    · show k.nlines + 1 ≤ 256
      omega
    · show 0 ≤ t.lens i ∧ t.lens i ≤ 255
      have hi2 : i < k.nlines + 1 := hi1
      rw [hlens]
      split
      · omega
      · split
        · omega
        · split
          · exact h.len _ (by omega) (by omega)
          · exact h.len _ (by omega) (by omega)
    · show t.rows (k.nlines + 1) = ((k.text.rows k.nlines).modify k.cy.toNat
        (fun l => l.take k.cx.toNat)).insertIdx (k.cy.toNat + 1) ((k.text.row k.cy).drop k.cx.toNat)
      unfold Text.rows
      rw [tab_modify, tab_insertIdx _ (by omega), show (k.nlines + 1).toNat =
        k.nlines.toNat + 1 by omega]
      refine tab_congr fun i hi => ?_
      rw [hrows]
      by_cases h1 : i < k.cy.toNat + 1
      · rw [if_pos h1]
        by_cases h2 : i = k.cy.toNat
        · rw [if_pos h2, if_pos (by omega), show (i : Int) = k.cy by omega]
        · rw [if_neg h2, if_neg (by omega), if_neg (by omega), if_neg (by omega)]
      · rw [if_neg h1, if_neg (by omega)]
        by_cases h2 : i = k.cy.toNat + 1
        · rw [if_pos h2, if_pos (by omega)]
        · rw [if_neg h2, if_neg (by omega), if_pos (by omega), if_neg (by omega)]
          congr 1
          omega
    · show min (max (k.cy + 1) 0) (k.nlines + 1 - 1) = ((k.cy.toNat + 1 : Nat) : Int)
      omega
    · show min (max 0 0) (t.lens ((k.cy.toNat + 1 : Nat) : Int)) = ((0 : Nat) : Int)
      rw [hlens, if_neg (by omega), if_pos (by omega)]
      omega
  · rw [if_neg (by omega)]
    obtain ⟨msg, hrun, hend⟩ := setMsg_spec full k
    unfold enter
    rw [if_pos (by omega)]
    exact ⟨_, hrun, h.shows.of_same rfl rfl rfl rfl, rfl, rfl, rfl, Or.inr hend⟩

theorem openLine_shows {k : Keo} (h : Sized k) (below : Bool) :
    ∃ k', openLine below k = some k' ∧
      Shows k' (k.page.insertLine (if below then k.page.y + 1 else k.page.y)) ∧ Kept k k' := by
  have hlo := h.lo
  have hhi := h.hi
  have hy0 := h.cy0
  have hy1 := h.cy1
  have hnum : k.page.rows.length = k.nlines.toNat := tab_length _ _
  unfold Page.insertLine
  rw [hnum]
  by_cases hn : k.nlines < 256
  · obtain ⟨i, hi⟩ : ∃ i, i = if below then k.cy + 1 else k.cy := ⟨_, rfl⟩
    have hi0 : 0 ≤ i := by rw [hi]; split <;> omega
    have hi1 : i ≤ k.nlines := by rw [hi]; split <;> omega
    have hiy : (if below then k.page.y + 1 else k.page.y) = i.toNat := by
      rw [hi, show k.page.y = k.cy.toNat from rfl]
      split <;> omega
    obtain ⟨t, hrun, hlens, hrows⟩ := openLine_spec h below hn hi
    rw [if_pos (by omega), hiy]
    refine ⟨_, hrun, ⟨?_, ?_, fun r hr0 hr1 => ?_, rows_insertIdx hi0 hi1 hrows, ?_, ?_⟩,
      ⟨rfl, rfl, rfl, Or.inl rfl⟩⟩
    · show 1 ≤ k.nlines + 1
      omega
    · show k.nlines + 1 ≤ 256
      omega
    · show 0 ≤ t.lens r ∧ t.lens r ≤ 255
      have hr2 : r < k.nlines + 1 := hr1
      rw [hlens]
      split
      · omega
      · split
        · exact h.len _ (by omega) (by omega)
        · exact h.len _ (by omega) (by omega)
    · show min (max i 0) (k.nlines + 1 - 1) = (i.toNat : Int)
      omega
    · show min (max 0 0) (t.lens (i.toNat : Int)) = ((0 : Nat) : Int)
      rw [hlens, if_pos (by omega)]
      omega
  · rw [if_neg (by omega)]
    obtain ⟨msg, hrun, hend⟩ := setMsg_spec full k
    unfold openLine
    rw [if_pos (by omega)]
    exact ⟨_, hrun, h.shows.of_same rfl rfl rfl rfl, rfl, rfl, rfl, Or.inr hend⟩

theorem delLine_shows {k : Keo} (h : Sized k) :
    ∃ k', delLine k = some k' ∧ Shows k' k.page.deleteLine ∧ Kept k k' := by
  have hlo := h.lo
  have hhi := h.hi
  have hy0 := h.cy0
  have hy1 := h.cy1
  have hx0 := h.cx0
  have hnum : k.page.rows.length = k.nlines.toNat := tab_length _ _
  unfold Page.deleteLine delLine
  rw [hnum]
  by_cases hn : k.nlines ≤ 1
  · rw [if_pos hn, if_pos (by omega), bind_of_eq (setLen_eq _ (by omega) (by omega))]
    have hone : k.nlines = 1 := by omega
    refine ⟨_, rfl, ⟨hlo, hhi, fun r hr0 hr1 => ?_, ?_, ?_, ?_⟩, ⟨rfl, rfl, rfl, Or.inl rfl⟩⟩
    · show 0 ≤ put k.text.lens 0 0 r ∧ put k.text.lens 0 0 r ≤ 255
      have hr2 : r < k.nlines := hr1
      rw [show r = 0 by omega, put_self]
      omega
    · show Text.rows _ k.nlines = [[]]
      rw [hone]
      exact congrArg (fun l => [l]) (row_nil (put_self k.text.lens 0 0))
    · show min (max k.cy 0) (k.nlines - 1) = ((0 : Nat) : Int)
      omega
    · show min (max 0 0) (put k.text.lens 0 0 ((0 : Nat) : Int)) = ((0 : Nat) : Int)
      rw [show ((0 : Nat) : Int) = 0 from rfl, put_self]
      omega
  · obtain ⟨t, hrun, hlens, hrows⟩ := delLineAt_spec h.hi h.cy0 h.cy1 h.len
    rw [if_neg hn, if_neg (by omega), bind_of_eq hrun]
    have hlist := rows_eraseIdx hy0 hy1 hrows
    have herase : k.page.rows.eraseIdx k.page.y = t.rows (k.nlines - 1) := hlist.symm
    have hcount : (t.rows (k.nlines - 1)).length = (k.nlines - 1).toNat := tab_length _ _
    have hbound : ∀ r, 0 ≤ r → r < k.nlines - 1 → 0 ≤ t.lens r ∧ t.lens r ≤ 255 := by
      intro r hr0 hr1
      rw [hlens]
      split
      · exact h.len _ (by omega) (by omega)
      · exact h.len _ (by omega) (by omega)
    rw [herase]
    dsimp only
    rw [hcount]
    have hy : ((min k.page.y ((k.nlines - 1).toNat - 1) : Nat) : Int) =
      min k.cy (k.nlines - 2) := by
      show ((min k.cy.toNat ((k.nlines - 1).toNat - 1) : Nat) : Int) = _
      omega
    have hrow : (t.rows (k.nlines - 1))[min k.page.y ((k.nlines - 1).toNat - 1)]?.getD [] =
        t.row (min k.cy (k.nlines - 2)) := by
      rw [Text.rows, tab_getElem?, if_pos (by omega), ← hy]
      rfl
    have hl := hbound (min k.cy (k.nlines - 2)) (by omega) (by omega)
    refine ⟨_, rfl, ⟨?_, ?_, hbound, rfl, ?_, ?_⟩, ⟨rfl, rfl, rfl, Or.inl rfl⟩⟩
    · show 1 ≤ k.nlines - 1
      omega
    · show k.nlines - 1 ≤ 256
      omega
    · show min (max k.cy 0) (k.nlines - 1 - 1) = _
      rw [hy]
      omega
    · show min (max k.cx 0) (t.lens ((min k.page.y ((k.nlines - 1).toNat - 1) : Nat) : Int)) =
        ((min k.cx.toNat _ : Nat) : Int)
      rw [hrow, hy, row_def, tab_length]
      omega

theorem backspace_shows {k : Keo} (h : Sized k) :
    ∃ k', backspace k = some k' ∧ Shows k' k.page.back ∧ Kept k k' := by
  have hlo := h.lo
  have hhi := h.hi
  have hy0 := h.cy0
  have hy1 := h.cy1
  have hx0 := h.cx0
  have hx1 := h.cx1
  obtain ⟨hl0, hl1⟩ := h.cyLen
  have hpx : k.page.x = k.cx.toNat := rfl
  have hpy : k.page.y = k.cy.toNat := rfl
  unfold Page.back
  by_cases hx : 0 < k.cx
  · rw [if_pos (by omega)]
    have hleft : Sized { k with cx := k.cx - 1 } :=
      ⟨hlo, hhi, h.len, hy0, hy1, by show 0 ≤ k.cx - 1; omega,
        by show k.cx - 1 ≤ k.text.lens k.cy; omega⟩
    have hpage : Keo.page { k with cx := k.cx - 1 } = { k.page with x := k.page.x - 1 } := by
      show Page.mk _ _ (k.cx - 1).toNat = Page.mk _ _ (k.cx.toNat - 1)
      rw [show (k.cx - 1).toNat = k.cx.toNat - 1 by omega]
      rfl
    unfold backspace
    rw [if_pos hx, ← hpage]
    obtain ⟨k', hrun, hshows, hkept⟩ := delChar_shows hleft
    exact ⟨k', hrun, hshows, hkept.fname, hkept.cmd, hkept.cmdlen, hkept.msg⟩
  · rw [if_neg (by omega)]
    by_cases hy : 0 < k.cy
    · have hprev : k.page.line (k.page.y - 1) = k.text.row (k.cy - 1) := by
        rw [hpy, page_line (by omega), show ((k.cy.toNat - 1 : Nat) : Int) = k.cy - 1 by omega]
      obtain ⟨hp0, hp1⟩ := h.len (k.cy - 1) (by omega) (by omega)
      have hlen0 : (k.text.row (k.cy - 1)).length = (k.text.lens (k.cy - 1)).toNat := tab_length _ _
      have hlen1 : (k.text.row k.cy).length = (k.text.lens k.cy).toNat := tab_length _ _
      rw [hprev, h.line, hlen0, hlen1]
      by_cases hfit : k.text.lens (k.cy - 1) + k.text.lens k.cy < 256
      · obtain ⟨t, hrun, hlens, hrows⟩ := backspace_join h (by omega) hy hfit
        rw [if_pos (by omega)]
        refine ⟨_, hrun, ⟨?_, ?_, fun r hr0 hr1 => ?_, rows_join hy hy1 hrows, ?_, ?_⟩,
          ⟨rfl, rfl, rfl, Or.inl rfl⟩⟩
        · show 1 ≤ k.nlines - 1
          omega
        · show k.nlines - 1 ≤ 256
          omega
        · show 0 ≤ t.lens r ∧ t.lens r ≤ 255
          have hr2 : r < k.nlines - 1 := hr1
          rw [hlens]
          split
          · omega
          · split
            · exact h.len _ (by omega) (by omega)
            · exact h.len _ (by omega) (by omega)
        · show min (max (k.cy - 1) 0) (k.nlines - 1 - 1) = ((k.cy.toNat - 1 : Nat) : Int)
          omega
        · show min (max (k.text.lens (k.cy - 1)) 0) (t.lens ((k.cy.toNat - 1 : Nat) : Int)) =
            ((k.text.lens (k.cy - 1)).toNat : Int)
          rw [hlens, if_pos (by omega)]
          omega
      · rw [if_neg (by omega)]
        unfold backspace
        rw [if_neg (by omega), if_pos hy, bind_of_eq (len_eq (by omega) (by omega)),
          bind_of_eq (len_eq hy0 (by omega)), if_neg hfit]
        exact ⟨k, rfl, h.shows, .refl k⟩
    · rw [if_neg (by omega)]
      unfold backspace
      rw [if_neg (by omega), if_neg (by omega)]
      exact ⟨k, rfl, h.shows, .refl k⟩

/-! ## The refinement -/

inductive Edit
  | insert (c : Int) (h : 32 ≤ c ∧ c < 127)
  | enter
  | backspace
  | delChar
  | delLine
  | openLine (below : Bool)

/-- The code of an edit; the first three are keys in insert mode. -/
def Edit.run : Edit → Keo → Option Keo
  | insert c _, k => insertKey c k
  | enter, k => insertKey 10 k
  | backspace, k => insertKey 8 k
  | delChar, k => User.delChar k
  | delLine, k => User.delLine k
  | openLine below, k => User.openLine below k

/-- The edit on lists. -/
def Edit.apply : Edit → Page → Page
  | insert c _, p => p.insert (UInt8.ofNat c.toNat)
  | enter, p => p.split
  | backspace, p => p.back
  | delChar, p => p.erase
  | delLine, p => p.deleteLine
  | openLine below, p => p.insertLine (if below then p.y + 1 else p.y)

theorem insertKey_insert {c : Int} (h : 32 ≤ c ∧ c < 127) (k : Keo) :
    insertKey c k = insertChar (UInt8.ofNat c.toNat) k := by
  unfold insertKey keyUp keyDown keyLeft keyRight
  rw [if_neg (by omega), if_neg (by omega), if_neg (by omega), if_neg (by omega), if_pos h]

theorem Edit.run_shows (e : Edit) {k : Keo} (h : Sized k) :
    ∃ k', e.run k = some k' ∧ Shows k' (e.apply k.page) ∧ Kept k k' := by
  cases e with
  | insert c hc =>
    rw [Edit.run, insertKey_insert hc]
    exact insertChar_shows h _
  | enter => exact enter_shows h
  | backspace => exact backspace_shows h
  | delChar => exact delChar_shows h
  | delLine => exact delLine_shows h
  | openLine below => exact openLine_shows h below

/-- **The editor edits lists**: every edit, followed by `clamp`, takes the page that the buffer
shows to the page that the list operation gives, and keeps the sizes in range. -/
theorem edit_page (e : Edit) {k : Keo} (h : Sized k) :
    ∃ k' k'', e.run k = some k' ∧ clamp k' = some k'' ∧ k''.page = e.apply k.page ∧ Sized k'' := by
  obtain ⟨k', hrun, hshows, -⟩ := e.run_shows h
  obtain ⟨k'', hclamp, hpage, hsized⟩ := hshows.clamp
  exact ⟨k', k'', hrun, hclamp, hpage, hsized⟩

/-- The empty buffer is in range, and a character typed into it appears. -/
theorem edit_page_start :
    Sized Keo.start ∧ ∃ k' k'', (Edit.insert 97 (by omega)).run Keo.start = some k' ∧
    clamp k' = some k'' ∧ k''.page = { rows := [[97]], y := 0, x := 1 } := by
  have h : Sized Keo.start :=
    ⟨by decide, by decide, fun _ _ _ => by show (0 : Int) ≤ 0 ∧ (0 : Int) ≤ 255; omega, by decide,
      by decide, by decide, by decide⟩
  obtain ⟨k', k'', hrun, hclamp, hpage, -⟩ := edit_page (.insert 97 (by omega)) h
  exact ⟨h, k', k'', hrun, hclamp, hpage⟩

end InaneOS.User
