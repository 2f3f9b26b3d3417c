import InaneOS.Lib.Checked
import Mathlib.Data.List.DropRight

/-!
# The history of the shell: `user/shell.c`

`hist` is 16 rows of 128 characters, each the text of a line and its NUL; the characters
behind the NUL are left over from longer lines. Every access is checked: a function of
the model returns nothing if the code would leave a row or the table.

While there is room a line goes to a new row. After that all rows move up by one, string
by string in place, and the line goes to the last row. `histLines` is the list the history
stands for; the table shows its last 16 elements (`histRun_shows`).
-/

namespace InaneOS.User

open InaneOS.Lib

/-- `hist` and `hcount`. -/
structure Hist where
  hist : Int → Int → UInt8
  hcount : Int

/-- A line as the shell reads it: the bytes before its NUL, in a buffer of 128. -/
structure Line where
  bytes : List UInt8
  short : bytes.length ≤ 127
  noNul : 0 ∉ bytes
deriving DecidableEq

/-- `hist[r][i]` -/
def Hist.char (h : Hist) (r i : Int) : Option UInt8 := do
  let row ← getAt 16 h.hist r
  getAt 128 row i

/-- `hist[r][i] = c` -/
def Hist.setChar (h : Hist) (r i : Int) (c : UInt8) : Option Hist := do
  let row ← getAt 16 h.hist r
  let row ← setAt 128 row i c
  let hist ← setAt 16 h.hist r row
  some { h with hist := hist }

/-- `same_condition(hist[r] + i, b)` for the bytes of `b` before its NUL. -/
def sameCondition (h : Hist) (r : Int) : Int → List UInt8 → Option Bool
  | i, [] => do
    let a ← h.char r i
    some (a == 0)
  | i, b :: bs => do
    let a ← h.char r i
    -- the loop ends at the NUL of the row or at the first difference
    if a ≠ 0 ∧ a = b then sameCondition h r (i + 1) bs else some (a == b)

/-- `for (i = 0; line[i]; i++) hist[r][i] = line[i]; hist[r][i] = '\0';`, from index `i` on. -/
def storeLine (r : Int) : List UInt8 → Int → Hist → Option Hist
  | [], i, h => h.setChar r i 0
  | c :: cs, i, h => do
    let h ← h.setChar r i c
    storeLine r cs (i + 1) h

/-- `for (i = 0; hist[r + 1][i]; i++) hist[r][i] = hist[r + 1][i]; hist[r][i] = '\0';`, with `n`
characters of the row left. -/
def moveRow (r : Int) : Nat → Int → Hist → Option Hist
  | 0, _, _ => none
  | n + 1, i, h => do
    let c ← h.char (r + 1) i
    if c ≠ 0 then
      let h ← h.setChar r i c
      moveRow r n (i + 1) h
    else h.setChar r i 0

/-- The `n` rows from `r` on take the strings of the rows behind them. -/
def moveRows : Nat → Int → Hist → Option Hist
  | 0, _, h => some h
  | n + 1, r, h => do
    let h ← moveRow r 128 0 h
    moveRows n (r + 1) h

/-- `hcount > 0 && same_condition(hist[hcount - 1], line)` -/
def isLast (line : List UInt8) (h : Hist) : Option Bool :=
  if h.hcount > 0 then sameCondition h (h.hcount - 1) 0 line else some false

def histPush (line : List UInt8) (h : Hist) : Option Hist :=
  if line = [] then some h
  else do
    let same ← isLast line h
    if same then some h
    else if h.hcount < 16 then do
      let h ← storeLine h.hcount line 0 h
      some { h with hcount := h.hcount + 1 }
    else do
      let h ← moveRows 15 0 h
      storeLine 15 line 0 h

/-- The lines one after the other. -/
def histRun : List Line → Hist → Option Hist
  | [], h => some h
  | l :: ls, h => do
    let h ← histPush l.bytes h
    histRun ls h

/-! ## What the history stands for -/

/-- One more line: not when it is empty or the same as the last one kept. -/
def keep (ls : List Line) (l : Line) : List Line :=
  if l.bytes = [] ∨ ls.getLast? = some l then ls else ls ++ [l]

/-- The lines kept of all those given. -/
def histLines (ls : List Line) : List Line := ls.foldl keep []

/-- The string `s` and its NUL stand in a row, from index `i` on. -/
def StringAt (row : Int → UInt8) : Int → List UInt8 → Prop
  | i, [] => row i = 0
  | i, c :: cs => row i = c ∧ StringAt row (i + 1) cs

/-- A row of 128 characters holds the string `s` with its NUL. -/
structure Stored (row : Int → UInt8) (s : List UInt8) : Prop where
  short : s.length ≤ 127
  text : StringAt row 0 s

/-- The rows up to `hcount` hold the lines `ls`. -/
structure Hist.Shows (h : Hist) (ls : List Line) : Prop where
  count : h.hcount = ls.length
  rows : ∀ (i : Nat) (hi : i < ls.length), Stored (h.hist i) ls[i].bytes

/-! ## Single accesses -/

theorem Hist.char_eq {h : Hist} {r i : Int} (hr : 0 ≤ r ∧ r < 16) (hi : 0 ≤ i ∧ i < 128) :
    h.char r i = some (h.hist r i) := by
  unfold Hist.char
  rw [bind_of_eq (getAt_eq hr.1 hr.2)]
  exact getAt_eq hi.1 hi.2

theorem Hist.setChar_eq {h : Hist} {r i : Int} (c : UInt8) (hr : 0 ≤ r ∧ r < 16)
    (hi : 0 ≤ i ∧ i < 128) :
    h.setChar r i c = some { h with hist := put h.hist r (put (h.hist r) i c) } := by
  unfold Hist.setChar
  rw [bind_of_eq (getAt_eq hr.1 hr.2), bind_of_eq (setAt_eq hi.1 hi.2),
    bind_of_eq (setAt_eq hr.1 hr.2)]

/-- Only the characters of the string matter. -/
theorem StringAt.congr {row row' : Int → UInt8} : ∀ {s : List UInt8} {i : Int},
    (∀ j, i ≤ j → row' j = row j) → StringAt row i s → StringAt row' i s
  | [], i, h, hs => (h i (Int.le_refl i)).trans hs
  | _ :: _, i, h, hs =>
    ⟨(h i (Int.le_refl i)).trans hs.1, hs.2.congr fun j hj => h j (by omega)⟩

/-! ## The loops -/

/-- What the loops that write a row change: the row `r` from index `i` on. -/
structure RowOnly (r i : Int) (h h' : Hist) : Prop where
  before : ∀ j, j < i → h'.hist r j = h.hist r j
  rows : ∀ a, a ≠ r → h'.hist a = h.hist a
  hcount : h'.hcount = h.hcount

/-- One character, and what is written behind it. -/
theorem RowOnly.cons {r i : Int} {h h' : Hist} {c : UInt8}
    (ho : RowOnly r (i + 1) { h with hist := put h.hist r (put (h.hist r) i c) } h') :
    RowOnly r i h h' ∧ h'.hist r i = c := by
  -- the rest of the loop leaves the row up to this character alone
  have hrow : ∀ j, j < i + 1 → h'.hist r j = put (h.hist r) i c j := by
    intro j hj
    have hb := ho.before j hj
    dsimp only at hb
    rw [hb, put_self]
  refine ⟨⟨fun j hj => ?_, fun a ha => ?_, ho.hcount⟩, ?_⟩
  · rw [hrow j (by omega), put_of_ne (by omega)]
  · exact (ho.rows a ha).trans (put_of_ne ha)
  · rw [hrow i (by omega), put_self]

theorem storeLine_eq {r : Int} (hr : 0 ≤ r ∧ r < 16) : ∀ (s : List UInt8) {i : Int} {h : Hist},
    0 ≤ i → i + s.length ≤ 127 → ∃ h', storeLine r s i h = some h' ∧ RowOnly r i h h' ∧
      StringAt (h'.hist r) i s
  | [], i, h, h0, h1 => by
    rw [List.length_nil] at h1
    rw [storeLine, Hist.setChar_eq 0 hr ⟨h0, by omega⟩]
    refine ⟨_, rfl, ⟨fun j hj => ?_, fun a ha => put_of_ne ha, rfl⟩, ?_⟩
    · show put h.hist r (put (h.hist r) i 0) r j = h.hist r j
      rw [put_self, put_of_ne (by omega)]
    · show put h.hist r (put (h.hist r) i 0) r i = 0
      rw [put_self, put_self]
  | c :: cs, i, h, h0, h1 => by
    rw [List.length_cons] at h1
    rw [storeLine, bind_of_eq (Hist.setChar_eq c hr ⟨h0, by omega⟩)]
    obtain ⟨h', hrun, honly, htext⟩ := storeLine_eq hr cs (i := i + 1)
      (h := { h with hist := put h.hist r (put (h.hist r) i c) }) (by omega) (by omega)
    obtain ⟨honly', hc⟩ := honly.cons
    exact ⟨h', hrun, honly', hc, htext⟩

/-- Moving the string of the next row is storing it: what is written does not change what is
read. -/
theorem moveRow_eq {r : Int} (h0 : 0 ≤ r) (h1 : r < 15) : ∀ (n : Nat) (s : List UInt8) {i : Int}
    {h : Hist}, 0 ≤ i → i + n = 128 → s.length < n → 0 ∉ s → StringAt (h.hist (r + 1)) i s →
    moveRow r n i h = storeLine r s i h
  | 0, s, i, h, _, _, hn, _, _ => absurd hn (Nat.not_lt_zero _)
  | n + 1, [], i, h, hi, hend, _, _, hs => by
    have hread : h.char (r + 1) i = some 0 := by
      rw [Hist.char_eq ⟨by omega, by omega⟩ ⟨hi, by omega⟩]
      exact congrArg some hs
    rw [moveRow, bind_of_eq hread, if_neg (not_not.mpr rfl), storeLine]
  | n + 1, c :: cs, i, h, hi, hend, hn, hne, hs => by
    obtain ⟨hfirst, hrest⟩ := hs
    have hc : c ≠ 0 := fun he => hne (by rw [he]; simp)
    have hread : h.char (r + 1) i = some c := by
      rw [Hist.char_eq ⟨by omega, by omega⟩ ⟨hi, by omega⟩, hfirst]
    have hset := Hist.setChar_eq (h := h) c (r := r) ⟨h0, by omega⟩ (i := i) ⟨hi, by omega⟩
    rw [List.length_cons] at hn
    rw [moveRow, bind_of_eq hread, if_pos hc, storeLine, bind_of_eq hset, bind_of_eq hset]
    -- the row above is written, so the string behind the character is still there
    refine moveRow_eq h0 h1 n cs (by omega) (by omega) (by omega)
      (fun hm => hne (List.mem_cons_of_mem _ hm)) (hrest.congr fun j _ => ?_)
    dsimp only
    rw [put_of_ne (by omega)]

/-- The rows from `r` on move up by one. -/
theorem moveRows_eq {f : Int → Line} : ∀ (n : Nat) {r : Int} {h : Hist}, 0 ≤ r → r + n ≤ 15 →
    (∀ a, r < a → a ≤ r + n → Stored (h.hist a) (f a).bytes) →
    ∃ h', moveRows n r h = some h' ∧ h'.hcount = h.hcount ∧
      (∀ a, a < r → h'.hist a = h.hist a) ∧
      ∀ a, r ≤ a → a < r + n → Stored (h'.hist a) (f (a + 1)).bytes
  | 0, r, h, _, _, _ => ⟨h, rfl, rfl, fun _ _ => rfl, fun a h1 h2 => by omega⟩
  | n + 1, r, h, h0, h1, hrows => by
    have hsrc := hrows (r + 1) (by omega) (by omega)
    have hshort := hsrc.short
    obtain ⟨h₁, hstore, honly, htext⟩ := storeLine_eq (r := r) ⟨h0, by omega⟩ (f (r + 1)).bytes
      (i := 0) (h := h) (Int.le_refl 0) (by omega)
    have hmove : moveRow r 128 0 h = some h₁ := by
      rw [moveRow_eq h0 (by omega) 128 (f (r + 1)).bytes (Int.le_refl 0) (by omega)
        (Nat.lt_succ_of_le hsrc.short) (f (r + 1)).noNul hsrc.text, hstore]
    -- the rows behind are as they were when their turn comes
    obtain ⟨h₂, hrun, hcount, hbefore, hafter⟩ := moveRows_eq (f := f) n (r := r + 1) (h := h₁)
      (by omega) (by omega) fun a ha hb => by
        rw [honly.rows a (by omega)]
        exact hrows a (by omega) (by omega)
    refine ⟨h₂, by rw [moveRows, bind_of_eq hmove, hrun], hcount.trans honly.hcount,
      fun a ha => ?_, fun a ha hb => ?_⟩
    · rw [hbefore a (by omega), honly.rows a (by omega)]
    · by_cases hra : a = r
      · rw [hra, hbefore r (by omega)]
        exact ⟨hshort, htext⟩
      · exact hafter a (by omega) (by omega)

/-- Comparing a row with a line, from index `i` on. -/
theorem sameCondition_eq {h : Hist} {r : Int} (hr : 0 ≤ r ∧ r < 16) : ∀ (bs s : List UInt8)
    {i : Int}, 0 ≤ i → i + s.length ≤ 127 → 0 ∉ bs → 0 ∉ s → StringAt (h.hist r) i s →
    sameCondition h r i bs = some (s == bs)
  | bs, [], i, hi, hlen, hbs, _, hs => by
    have hread : h.char r i = some 0 := by
      rw [List.length_nil] at hlen
      rw [Hist.char_eq hr ⟨hi, by omega⟩]
      exact congrArg some hs
    cases bs with
    | nil =>
      rw [sameCondition, bind_of_eq hread]
      rfl
    | cons b bs =>
      have hb : (0 : UInt8) ≠ b := fun he => hbs (by rw [he]; simp)
      rw [sameCondition, bind_of_eq hread, if_neg (fun hc => hc.1 rfl), beq_false_of_ne hb]
      rfl
  | bs, c :: cs, i, hi, hlen, hbs, hcs, hs => by
    obtain ⟨hfirst, hrest⟩ := hs
    have hc : c ≠ 0 := fun he => hcs (by rw [he]; simp)
    rw [List.length_cons] at hlen
    have hread : h.char r i = some c := by
      rw [Hist.char_eq hr ⟨hi, by omega⟩, hfirst]
    cases bs with
    | nil =>
      rw [sameCondition, bind_of_eq hread, beq_false_of_ne hc]
      rfl
    | cons b bs =>
      rw [sameCondition, bind_of_eq hread]
      by_cases hcb : c = b
      · rw [if_pos ⟨hc, hcb⟩, sameCondition_eq hr bs cs (by omega) (by omega)
          (fun hm => hbs (List.mem_cons_of_mem _ hm)) (fun hm => hcs (List.mem_cons_of_mem _ hm))
          hrest, hcb, List.cons_beq_cons, beq_self_eq_true, Bool.true_and]
      · rw [if_neg (fun hb => hcb hb.2), List.cons_beq_cons, beq_false_of_ne hcb, Bool.false_and]

/-! ## One line -/

/-- The test for the last line, when the table shows `ls`. -/
theorem isLast_eq {h : Hist} {ls : List Line} (hs : h.Shows ls) (hlen : ls.length ≤ 16) (l : Line) :
    isLast l.bytes h = some (decide (ls.getLast? = some l)) := by
  unfold isLast
  have hcount := hs.count
  rcases List.eq_nil_or_concat' ls with rfl | ⟨init, last, rfl⟩
  · rw [if_neg (by rw [hcount]; decide)]
    rfl
  · rw [List.length_append, List.length_singleton] at hcount hlen
    have hst := hs.rows init.length (by simp)
    rw [List.getElem_append_right (Nat.le_refl _)] at hst
    simp only [Nat.sub_self, List.getElem_cons_zero] at hst
    have hshort := hst.short
    have hrow : h.hcount - 1 = init.length := by omega
    rw [if_pos (by omega), hrow, sameCondition_eq ⟨by omega, by omega⟩ l.bytes last.bytes
      (Int.le_refl 0) (by omega) l.noNul last.noNul hst.text, List.getLast?_concat]
    congr 1
    rw [Bool.eq_iff_iff, beq_iff_eq, decide_eq_true_eq, Option.some_inj]
    constructor
    · intro hb
      cases last
      cases l
      cases hb
      rfl
    · intro hb
      rw [hb]

/-- A line to a new row. -/
theorem Hist.Shows.room {h : Hist} {ls : List Line} (hs : h.Shows ls) (hlen : ls.length < 16)
    (l : Line) : ∃ h', storeLine h.hcount l.bytes 0 h = some h' ∧
      Hist.Shows { h' with hcount := h'.hcount + 1 } (ls ++ [l]) := by
  have hshort := l.short
  have hcount := hs.count
  obtain ⟨h', hrun, honly, htext⟩ := storeLine_eq (r := h.hcount) ⟨by omega, by omega⟩ l.bytes
    (i := 0) (h := h) (Int.le_refl 0) (by omega)
  refine ⟨h', hrun, ?_, fun i hi => ?_⟩
  · rw [List.length_append, List.length_singleton]
    show h'.hcount + 1 = _
    rw [honly.hcount]
    omega
  · rw [List.length_append, List.length_singleton] at hi
    show Stored (h'.hist i) _
    by_cases hlast : i < ls.length
    · rw [List.getElem_append_left hlast, honly.rows _ (by omega)]
      exact hs.rows i hlast
    · have hi' : i = ls.length := by omega
      subst hi'
      rw [List.getElem_concat_length rfl, ← hcount]
      exact ⟨hshort, htext⟩

/-- A line to the full table: the rows move up, and the first is gone. -/
theorem Hist.Shows.full {h : Hist} {ls : List Line} (hs : h.Shows ls) (hlen : ls.length = 16)
    (l : Line) : ∃ h₁ h', moveRows 15 0 h = some h₁ ∧ storeLine 15 l.bytes 0 h₁ = some h' ∧
      h'.Shows (ls.tail ++ [l]) := by
  have hshort := l.short
  obtain ⟨h₁, hmove, hcount₁, -, hrows₁⟩ := moveRows_eq (f := fun a => ls.getD a.toNat l) 15
    (r := 0) (h := h) (Int.le_refl 0) (Int.le_refl 15) fun a h0 h1 => by
      have hst := hs.rows a.toNat (by omega)
      rw [Int.toNat_of_nonneg (by omega)] at hst
      rw [List.getD_eq_getElem?_getD, List.getElem?_eq_getElem (by omega)]
      exact hst
  obtain ⟨h', hrun, honly, htext⟩ := storeLine_eq (r := 15) ⟨by decide, by decide⟩ l.bytes
    (i := 0) (h := h₁) (Int.le_refl 0) (by omega)
  have hcount := hs.count
  have htail : ls.tail.length = 15 := by rw [List.length_tail, hlen]
  refine ⟨h₁, h', hmove, hrun, ?_, fun i hi => ?_⟩
  · rw [honly.hcount, hcount₁, hcount, hlen, List.length_append, htail]
    rfl
  · rw [List.length_append, List.length_singleton, htail] at hi
    by_cases hlast : i < 15
    · have hst := hrows₁ i (by omega) (by omega)
      have hidx : ((i : Int) + 1).toNat = i + 1 := by omega
      rw [hidx, List.getD_eq_getElem?_getD, List.getElem?_eq_getElem (by omega)] at hst
      rw [List.getElem_append_left (by omega), List.getElem_tail, honly.rows _ (by omega)]
      exact hst
    · have hi' : i = ls.tail.length := by omega
      subst hi'
      rw [List.getElem_concat_length rfl, htail]
      exact ⟨hshort, htext⟩

/-- The last 16 lines, with one more behind them. -/
theorem rtake_room {ls : List Line} (hlen : ls.length < 16) (l : Line) :
    (ls ++ [l]).rtake 16 = ls.rtake 16 ++ [l] := by
  rw [List.rtake_concat_succ, List.rtake, List.rtake, Nat.sub_eq_zero_of_le (by omega),
    Nat.sub_eq_zero_of_le (by omega)]

theorem rtake_full {ls : List Line} (hlen : 16 ≤ ls.length) (l : Line) :
    (ls ++ [l]).rtake 16 = (ls.rtake 16).tail ++ [l] := by
  rw [List.rtake_concat_succ, List.rtake, List.rtake, List.tail_drop]
  congr 2
  omega

theorem rtake_length (ls : List Line) : (ls.rtake 16).length = min 16 ls.length := by
  rw [List.rtake, List.length_drop]
  omega

/-- **One line**: the table shows the last 16 lines kept before it and after it. -/
theorem histPush_shows {h : Hist} {ls : List Line} (hs : h.Shows (ls.rtake 16)) (l : Line) :
    ∃ h', histPush l.bytes h = some h' ∧ h'.Shows ((keep ls l).rtake 16) := by
  unfold histPush keep
  by_cases hempty : l.bytes = []
  · rw [if_pos hempty, if_pos (Or.inl hempty)]
    exact ⟨h, rfl, hs⟩
  · have hlen := rtake_length ls
    have hlast : (ls.rtake 16).getLast? = ls.getLast? := by
      rcases List.eq_nil_or_concat' ls with rfl | ⟨init, last, rfl⟩
      · rfl
      · rw [List.rtake_concat_succ, List.getLast?_concat, List.getLast?_concat]
    rw [if_neg hempty, bind_of_eq (isLast_eq hs (by omega) l), hlast]
    by_cases hsame : ls.getLast? = some l
    · rw [if_pos (decide_eq_true hsame), if_pos (Or.inr hsame)]
      exact ⟨h, rfl, hs⟩
    · have hkeep : ¬ (l.bytes = [] ∨ ls.getLast? = some l) := not_or.mpr ⟨hempty, hsame⟩
      rw [decide_eq_false hsame, if_neg Bool.false_ne_true, if_neg hkeep]
      have hcount := hs.count
      -- a new row while there is room, and the last one afterwards
      by_cases hroom : ls.length < 16
      · obtain ⟨h', hrun, hshows⟩ := hs.room (by omega) l
        rw [if_pos (by omega), bind_of_eq hrun, rtake_room hroom]
        exact ⟨_, rfl, hshows⟩
      · obtain ⟨h₁, h', hmove, hrun, hshows⟩ := hs.full (by omega) l
        rw [if_neg (by omega), bind_of_eq hmove, hrun, rtake_full (by omega)]
        exact ⟨h', rfl, hshows⟩

/-! ## Any number of lines -/

theorem histRun_from (lines : List Line) : ∀ {h : Hist} {ls : List Line}, h.Shows (ls.rtake 16) →
    ∃ h', histRun lines h = some h' ∧ h'.Shows ((lines.foldl keep ls).rtake 16) := by
  induction lines with
  | nil => exact fun hs => ⟨_, rfl, hs⟩
  | cons l lines ih =>
    intro h ls hs
    obtain ⟨h₁, hpush, hs₁⟩ := histPush_shows hs l
    obtain ⟨h', hrun, hs'⟩ := ih hs₁
    exact ⟨h', by rw [histRun, bind_of_eq hpush, hrun], hs'⟩

/-- **The history keeps the latest lines**: after any lines the table shows the last 16 of those
kept, or all of them, and no access left it. -/
theorem histRun_shows (hist : Int → Int → UInt8) (lines : List Line) :
    ∃ h, histRun lines ⟨hist, 0⟩ = some h ∧ h.hcount = min 16 (histLines lines).length ∧
      h.Shows ((histLines lines).rtake 16) := by
  have hstart : Hist.Shows ⟨hist, 0⟩ (([] : List Line).rtake 16) :=
    ⟨rfl, fun i hi => absurd hi (Nat.not_lt_zero i)⟩
  obtain ⟨h, hrun, hs⟩ := histRun_from lines hstart
  refine ⟨h, hrun, ?_, hs⟩
  have hcount := hs.count
  rw [rtake_length] at hcount
  have hkept : (lines.foldl keep []).length = (histLines lines).length := rfl
  omega

end InaneOS.User
