import InaneOS.User.KeoKeys
import InaneOS.User.KeoLoad
import InaneOS.User.KeoPage

/-!
# The editor over whole runs

`KeoInv` holds whenever the editor waits for a key. A key may leave the cursor outside
the text; what it keeps is `Loose`, and the `clamp` in `draw` does the rest. That no array
is left is part of every statement here: a function of the model returns nothing if an
index was out of bounds.
-/

namespace InaneOS.User

open InaneOS.Lib

/-- What holds after a key, before `draw`. -/
structure Loose (k : Keo) : Prop where
  lo : 1 ≤ k.nlines
  hi : k.nlines ≤ 256
  len : ∀ i, 0 ≤ i → i < k.nlines → 0 ≤ k.text.lens i ∧ k.text.lens i ≤ 255
  cmdlen0 : 0 ≤ k.cmdlen
  cmdlen1 : k.cmdlen ≤ 127
  cmdEnd : k.cmd k.cmdlen = 0
  fname : ∃ i, 0 ≤ i ∧ i < 128 ∧ k.fname i = 0
  msg : ∃ i, 0 ≤ i ∧ i < 80 ∧ k.msg i = 0

/-- What holds between keys. -/
structure KeoInv (k : Keo) : Prop extends Loose k where
  cy0 : 0 ≤ k.cy
  cy1 : k.cy < k.nlines
  cx0 : 0 ≤ k.cx
  cx1 : k.cx ≤ k.text.lens k.cy
  top0 : 0 ≤ k.top
  top1 : k.top ≤ k.cy
  top2 : k.cy ≤ k.top + 22

theorem KeoInv.sized {k : Keo} (h : KeoInv k) : Sized k :=
  ⟨h.lo, h.hi, h.len, h.cy0, h.cy1, h.cx0, h.cx1⟩

/-- The cursor, the mode and the flags do not matter. -/
theorem Loose.of_same {k k' : Keo} (h : Loose k) (ht : k'.text = k.text) (hn : k'.nlines = k.nlines)
    (hc : k'.cmd = k.cmd) (hl : k'.cmdlen = k.cmdlen) (hf : k'.fname = k.fname)
    (hm : k'.msg = k.msg) : Loose k' := by
  obtain ⟨h1, h2, h3, h4, h5, h6, h7, h8⟩ := h
  rw [← hn] at h1 h2 h3
  rw [← ht] at h3
  rw [← hl] at h4 h5 h6
  rw [← hc] at h6
  rw [← hf] at h7
  rw [← hm] at h8
  exact ⟨h1, h2, h3, h4, h5, h6, h7, h8⟩

theorem Loose.ite {c : Prop} [Decidable c] {a b : Keo} (ha : Loose a) (hb : Loose b) :
    Loose (if c then a else b) := by
  split
  · exact ha
  · exact hb

theorem Loose.edit {k k' : Keo} {p : Page} (h : Loose k) (hs : Shows k' p) (hk : Kept k k') :
    Loose k' := by
  refine ⟨hs.lo, hs.hi, hs.len, ?_, ?_, ?_, ?_, ?_⟩
  · rw [hk.cmdlen]
    exact h.cmdlen0
  · rw [hk.cmdlen]
    exact h.cmdlen1
  · rw [hk.cmdlen, hk.cmd]
    exact h.cmdEnd
  · rw [hk.fname]
    exact h.fname
  · rcases hk.msg with hm | hm
    · rw [hm]
      exact h.msg
    · exact hm

theorem setMsg_loose (s : List UInt8) {k : Keo} (h : Loose k) :
    ∃ k', setMsg s k = some k' ∧ Loose k' := by
  obtain ⟨msg, hrun, hend⟩ := setMsg_spec s k
  exact ⟨_, hrun, h.lo, h.hi, h.len, h.cmdlen0, h.cmdlen1, h.cmdEnd, h.fname, hend⟩

/-! ## The row of `draw` -/

theorem rowPuts_eq : ∀ {cs row : List UInt8}, row.length + cs.length ≤ 80 →
    rowPuts row cs = some (row ++ cs)
  | [], row, _ => by rw [rowPuts, List.append_nil]
  | c :: cs, row, h => by
    rw [List.length_cons] at h
    have hput : rowPut row c = some (row ++ [c]) := if_pos (by omega)
    rw [rowPuts, bind_of_eq hput,
      rowPuts_eq (by rw [List.length_append, List.length_singleton]; omega),
      List.append_assoc, List.singleton_append]

theorem rowPad_eq {row : List UInt8} {w : Nat} (h : row.length ≤ 80) (hw : w ≤ 80) :
    ∃ row', rowPad row w = some row' ∧ row'.length = max row.length w := by
  refine ⟨_, rowPuts_eq (by rw [List.length_replicate]; omega), ?_⟩
  rw [List.length_append, List.length_replicate]
  omega

/-- A number below `10 ^ m` has at most `m` digits. -/
theorem tmpDigits_eq : ∀ (m : Nat) {n u : Nat} (tmp : List UInt8), u < 10 ^ m → m ≤ n →
    ∃ ds, tmpDigits n u tmp = some (tmp ++ ds) ∧ ds.length ≤ m
  | 0, n, u, tmp, hu, _ => by
    have h0 : u = 0 := by omega
    refine ⟨[], ?_, Nat.le_refl _⟩
    cases n with
    | zero => rw [tmpDigits, if_pos h0, List.append_nil]
    | succ n => rw [tmpDigits, if_pos h0, List.append_nil]
  | m + 1, 0, u, tmp, _, hn => by omega
  | m + 1, n + 1, u, tmp, hu, hn => by
    rw [tmpDigits]
    by_cases h0 : u = 0
    · rw [if_pos h0]
      exact ⟨[], by rw [List.append_nil], by simp⟩
    · rw [if_neg h0]
      have hdiv : u / 10 < 10 ^ m := by
        rw [Nat.div_lt_iff_lt_mul (by omega)]
        rw [Nat.pow_succ] at hu
        exact hu
      obtain ⟨ds, hrun, hlen⟩ := tmpDigits_eq m (tmp ++ [UInt8.ofNat (48 + u % 10)]) hdiv
        (Nat.le_of_succ_le_succ hn)
      refine ⟨UInt8.ofNat (48 + u % 10) :: ds, ?_, by rw [List.length_cons]; omega⟩
      rw [hrun, List.append_assoc, List.singleton_append]

theorem emitDec_eq {row : List UInt8} {v : Int} (h0 : 0 < v) (h1 : v < 1000)
    (hrow : row.length + 3 ≤ 80) :
    ∃ row', emitDec row v = some row' ∧ row'.length ≤ row.length + 3 := by
  obtain ⟨ds, hrun, hlen⟩ :=
    tmpDigits_eq 3 (n := 20) [] (show v.natAbs < 10 ^ 3 by omega) (by omega)
  have hsign : emitSign row v = some row := if_neg (by omega)
  have hdigits : decDigits v = some ds := (if_neg (by omega)).trans hrun
  unfold emitDec
  rw [bind_of_eq hsign, bind_of_eq hdigits, rowPuts_eq (by rw [List.length_reverse]; omega)]
  refine ⟨_, rfl, ?_⟩
  rw [List.length_append, List.length_reverse]
  omega

/-- Copying a string stops at its NUL or at the column `w`. -/
theorem rowCopy_eq {size : Int} {a : Int → UInt8} {w : Nat} (hw : w ≤ 80) {z : Int} (hz1 : z < size)
    (hz : a z = 0) : ∀ (n : Nat) {i : Int} {row : List UInt8}, 0 ≤ i → i ≤ z → row.length ≤ 80 →
    ∃ row', rowCopy size a w n i row = some row' ∧ row'.length ≤ max row.length w
  | 0, i, row, h0, h1, _ => by
    rw [rowCopy, bind_of_eq (getAt_eq h0 (by omega))]
    exact ⟨row, rfl, by omega⟩
  | n + 1, i, row, h0, h1, h2 => by
    rw [rowCopy, bind_of_eq (getAt_eq h0 (by omega))]
    by_cases hc : a i ≠ 0 ∧ row.length < w
    · have hne : i ≠ z := by
        intro he
        subst he
        exact hc.1 hz
      have hput : rowPut row (a i) = some (row ++ [a i]) := if_pos (by omega)
      have hlen : (row ++ [a i]).length = row.length + 1 := by simp
      rw [if_pos hc, bind_of_eq hput]
      obtain ⟨row', hrun, hl⟩ := @rowCopy_eq size a w hw z hz1 hz n (i + 1) (row ++ [a i])
        (by omega) (by omega) (by omega)
      exact ⟨row', hrun, by omega⟩
    · rw [if_neg hc]
      exact ⟨row, rfl, by omega⟩

theorem lineChars_eq {k : Keo} (h : Loose k) {li : Int} (h0 : 0 ≤ li) :
    ∃ row, lineChars k li = some row ∧ row.length ≤ 80 := by
  unfold lineChars
  by_cases hli : li < k.nlines
  · have hhi := h.hi
    obtain ⟨hl0, hl1⟩ := h.len li h0 hli
    have hchars : (List.range (min (k.text.lens li) 80).toNat).mapM
        (fun (j : Nat) => k.text.char li j) =
        some ((List.range (min (k.text.lens li) 80).toNat).map
          fun (j : Nat) => k.text.lines li j) := by
      refine mapM_of_eq fun j hj => char_eq h0 (by omega) (by omega) ?_
      have := List.mem_range.mp hj
      omega
    have hlen : ((List.range (min (k.text.lens li) 80).toNat).map
        fun (j : Nat) => k.text.lines li j).length ≤ 80 := by
      rw [List.length_map, List.length_range]
      omega
    rw [if_pos hli, bind_of_eq (len_eq h0 (by omega)), bind_of_eq hchars,
      rowPuts_eq (by rw [List.length_nil]; omega)]
    exact ⟨_, rfl, hlen⟩
  · rw [if_neg hli]
    exact ⟨[126], rfl, by decide⟩

theorem drawLine_eq {k : Keo} (h : Loose k) {li : Int} (h0 : 0 ≤ li) :
    ∃ row, drawLine k li = some row := by
  obtain ⟨row, hrun, hlen⟩ := lineChars_eq h h0
  obtain ⟨row', hpad, -⟩ := rowPad_eq hlen (Nat.le_refl 80)
  exact ⟨row', by rw [drawLine, bind_of_eq hrun, hpad]⟩

theorem modeName_length (m : Mode) : (modeName m).length ≤ 6 := by
  cases m <;> decide

theorem dirtyMark_eq {k : Keo} {row : List UInt8} (h : row.length < 80) :
    ∃ row', dirtyMark k row = some row' ∧ row'.length ≤ row.length + 1 := by
  unfold dirtyMark
  split
  · exact ⟨row ++ [42], if_pos h, by simp⟩
  · exact ⟨row, rfl, by omega⟩

/-- The status row: the name in at most 40 columns, then two numbers of at most three digits and
the mode from column 52 on. -/
theorem statusRow_eq {k : Keo} (h : KeoInv k) : ∃ row, statusRow k = some row := by
  obtain ⟨z, hz0, hz1, hz⟩ := h.fname
  have hhi := h.hi
  have hcy0 := h.cy0
  have hcy1 := h.cy1
  have hcx0 := h.cx0
  have hcx1 := h.cx1
  have hlen := (h.len k.cy hcy0 hcy1).2
  obtain ⟨r1, hr1, hl1⟩ := @rowCopy_eq 128 k.fname 40 (by omega) z hz1 hz 40 0 [107, 101, 111, 32]
    (Int.le_refl 0) hz0 (by decide)
  have hl1' : r1.length ≤ 40 := hl1
  obtain ⟨r2, hr2, hl2⟩ := @dirtyMark_eq k r1 (by omega)
  obtain ⟨r3, hr3, hl3⟩ := @rowPad_eq r2 52 (by omega) (by omega)
  obtain ⟨r4, hr4, hl4⟩ := @emitDec_eq r3 (k.cy + 1) (by omega) (by omega) (by omega)
  have hr5 : rowPut r4 44 = some (r4 ++ [44]) := if_pos (by omega)
  have hl5 : (r4 ++ [44]).length = r4.length + 1 := by simp
  obtain ⟨r6, hr6, hl6⟩ := @emitDec_eq (r4 ++ [44]) (k.cx + 1) (by omega) (by omega) (by omega)
  have hr7 : rowPut r6 32 = some (r6 ++ [32]) := if_pos (by omega)
  have hl7 : (r6 ++ [32]).length = r6.length + 1 := by simp
  have hl8 : ((modeName k.mode).take (80 - (r6 ++ [32]).length)).length ≤ 6 :=
    Nat.le_trans (by rw [List.length_take]; omega) (modeName_length k.mode)
  have hr8 := @rowPuts_eq ((modeName k.mode).take (80 - (r6 ++ [32]).length)) (r6 ++ [32])
    (by omega)
  obtain ⟨r9, hr9, -⟩ :=
    @rowPad_eq (r6 ++ [32] ++ (modeName k.mode).take (80 - (r6 ++ [32]).length)) 80
    (by rw [List.length_append]; omega) (by omega)
  refine ⟨r9, ?_⟩
  unfold statusRow
  rw [bind_of_eq (rowPuts_eq (by decide)), List.nil_append, bind_of_eq hr1, bind_of_eq hr2,
    bind_of_eq hr3, bind_of_eq hr4, bind_of_eq hr5, bind_of_eq hr6, bind_of_eq hr7,
      bind_of_eq hr8, hr9]

theorem cmdRow_eq {k : Keo} (h : Loose k) : ∃ row, cmdRow k = some row := by
  have hchars : ∃ row, cmdChars k = some row ∧ row.length ≤ 80 := by
    unfold cmdChars
    split
    · have h1 := h.cmdlen1
      have hcmd : (List.range (min k.cmdlen 79).toNat).mapM (fun (j : Nat) => getAt 128 k.cmd j) =
          some ((List.range (min k.cmdlen 79).toNat).map fun (j : Nat) => k.cmd j) := by
        refine mapM_of_eq fun j hj => getAt_eq (by omega) ?_
        have := List.mem_range.mp hj
        omega
      have hlen : ((List.range (min k.cmdlen 79).toNat).map fun (j : Nat) => k.cmd j).length ≤
        79 := by
        rw [List.length_map, List.length_range]
        omega
      have hput : rowPut [] 58 = some [58] := rfl
      rw [bind_of_eq hput, bind_of_eq hcmd, rowPuts_eq (by rw [List.length_singleton]; omega)]
      exact ⟨_, rfl, by rw [List.length_append, List.length_singleton]; omega⟩
    · obtain ⟨z, hz0, hz1, hz⟩ := h.msg
      obtain ⟨row, hrun, hlen⟩ := @rowCopy_eq 80 k.msg 80 (Nat.le_refl 80) z hz1 hz 80 0 []
        (Int.le_refl 0) hz0 (by decide)
      exact ⟨row, hrun, hlen⟩
  obtain ⟨row, hrun, hlen⟩ := hchars
  obtain ⟨row', hpad, -⟩ := rowPad_eq hlen (Nat.le_refl 80)
  exact ⟨row', by rw [cmdRow, bind_of_eq hrun, hpad]⟩

theorem clamp_inv {k : Keo} (h : Loose k) : ∃ k', clamp k = some k' ∧ KeoInv k' := by
  obtain ⟨cy, cx, top, hrun, hcy, hcx, htop⟩ := clamp_eq h.lo h.hi
  have hlo := h.lo
  have hhi := h.hi
  obtain ⟨hl0, hl1⟩ := h.len cy (by omega) (by omega)
  refine ⟨_, hrun, ⟨h.of_same rfl rfl rfl rfl rfl rfl, ?_, ?_, ?_, ?_, ?_, ?_, ?_⟩⟩
    <;> dsimp only <;> omega

/-- `draw` puts the cursor back into the text. -/
theorem draw_inv {k : Keo} (h : Loose k) : ∃ k' out, draw k = some (k', out) ∧ KeoInv k' := by
  obtain ⟨k', hclamp, hinv⟩ := clamp_inv h
  have hrows : ∀ r : Nat, ∃ out, paintRow k' r = some out := by
    intro r
    have htop := hinv.top0
    obtain ⟨row, hrow⟩ := @drawLine_eq k' hinv.toLoose (k'.top + r) (by omega)
    exact ⟨_, by rw [paintRow, bind_of_eq hrow]⟩
  choose out hout using hrows
  obtain ⟨status, hstatus⟩ := statusRow_eq hinv
  obtain ⟨cmd, hcmd⟩ := cmdRow_eq hinv.toLoose
  unfold draw
  rw [bind_of_eq hclamp, bind_of_eq (mapM_of_eq fun r _ => hout r), bind_of_eq hstatus,
    bind_of_eq hcmd]
  exact ⟨k', _, rfl, hinv⟩

/-! ## Keys -/

theorem Loose.moved {k k' : Keo} (h : Loose k) (hm : Moved k k') : Loose k' := by
  obtain ⟨cx, cy, mode, pendD, pendG, rfl⟩ := hm
  exact h.of_same rfl rfl rfl rfl rfl rfl

theorem normalChain_loose (c : Int) {k : Keo} (h : KeoInv k) :
    ∃ done k', normalChain c k = some (done, k') ∧ Loose k' := by
  have hl := h.toLoose
  have hcases := normalChain_cases c k
  generalize normalChain c k = res at hcases ⊢
  cases hcases with
  | move hm => exact ⟨_, _, rfl, hl.moved hm⟩
  | look hm =>
    rw [bind_of_eq (len_eq h.cy0 (Int.lt_of_lt_of_le h.cy1 h.hi))]
    exact ⟨_, _, rfl, hl.moved (hm _)⟩
  | newLine below =>
    obtain ⟨k', hrun, hshows, hkept⟩ := openLine_shows h.sized below
    rw [bind_of_eq hrun]
    exact ⟨_, _, rfl, hl.edit hshows hkept⟩
  | delChar =>
    obtain ⟨k', hrun, hshows, hkept⟩ := delChar_shows h.sized
    rw [bind_of_eq hrun]
    exact ⟨_, _, rfl, hl.edit hshows hkept⟩
  | delLine =>
    obtain ⟨k', hrun, hshows, hkept⟩ := delLine_shows h.sized
    rw [bind_of_eq hrun]
    exact ⟨_, _, rfl, (hl.edit hshows hkept).moved ⟨_, _, _, _, _, rfl⟩⟩
  | colon =>
    -- an empty command: the NUL goes to its first place
    rw [bind_of_eq (setAt_eq (by omega) (by omega))]
    exact ⟨_, _, rfl, hl.lo, hl.hi, hl.len, Int.le_refl 0, (by omega : (0 : Int) ≤ 127),
      put_self k.cmd 0 0, hl.fname, hl.msg⟩

theorem normalKey_loose (c : Int) {k : Keo} (h : KeoInv k) :
    ∃ k', normalKey c k = some k' ∧ Loose k' := by
  obtain ⟨done, k', hrun, hl⟩ := normalChain_loose c h
  unfold normalKey
  rw [bind_of_eq hrun]
  exact ⟨_, rfl, .ite hl (hl.moved (forget_moved c k'))⟩

theorem insertKey_loose (c : Int) {k : Keo} (h : KeoInv k) :
    ∃ k', insertKey c k = some k' ∧ Loose k' := by
  have hl := h.toLoose
  have hcy : k.text.len k.cy = some (k.text.lens k.cy) :=
    len_eq h.cy0 (Int.lt_of_lt_of_le h.cy1 h.hi)
  unfold insertKey
  split
  · rw [bind_of_eq hcy]
    exact ⟨_, rfl, .ite (hl.of_same rfl rfl rfl rfl rfl rfl) (hl.of_same rfl rfl rfl rfl rfl rfl)⟩
  split
  · exact normalKey_loose c h
  split
  · obtain ⟨k', hrun, hshows, hkept⟩ := enter_shows h.sized
    exact ⟨k', hrun, hl.edit hshows hkept⟩
  split
  · obtain ⟨k', hrun, hshows, hkept⟩ := backspace_shows h.sized
    exact ⟨k', hrun, hl.edit hshows hkept⟩
  split
  · obtain ⟨k', hrun, hshows, hkept⟩ := insertChar_shows h.sized (UInt8.ofNat c.toNat)
    exact ⟨k', hrun, hl.edit hshows hkept⟩
  · exact ⟨k, rfl, hl⟩

/-! ## Commands -/

/-- A test of the command reads no further than its NUL. -/
theorem sameFrom_some {cmd : Int → UInt8} {e : Int} (h1 : e ≤ 127) (he : cmd e = 0) :
    ∀ (bs : List UInt8) {i : Int}, 0 ≤ i → i ≤ e → ∃ b, sameFrom cmd i bs = some b
  | [], i, h0, hi => ⟨_, by rw [sameFrom, bind_of_eq (getAt_eq h0 (by omega))]⟩
  | b :: bs, i, h0, hi => by
    rw [sameFrom, bind_of_eq (getAt_eq h0 (by omega))]
    by_cases hc : cmd i ≠ 0 ∧ cmd i = b
    · have hne : i ≠ e := by
        intro he
        subst he
        exact hc.1 he
      rw [if_pos hc]
      exact sameFrom_some h1 he bs (by omega) (by omega)
    · rw [if_neg hc]
      exact ⟨_, rfl⟩

theorem nameLoop_some {cmd : Int → UInt8} {e : Int} (h1 : e ≤ 127) (he : cmd e = 0) :
    ∀ (n : Nat) {i : Int} {fname : Int → UInt8}, 0 ≤ i → 2 + i ≤ e →
      ∃ i' fname', nameLoop cmd n i fname = some (i', fname') ∧ 0 ≤ i' ∧ i' < 128
  | 0, i, fname, h0, hi => by
    rw [nameLoop, bind_of_eq (getAt_eq (by omega) (by omega))]
    exact ⟨i, fname, rfl, h0, by omega⟩
  | n + 1, i, fname, h0, hi => by
    rw [nameLoop, bind_of_eq (getAt_eq (by omega) (by omega))]
    by_cases hc : cmd (2 + i) = 0
    · rw [if_pos hc]
      exact ⟨i, fname, rfl, h0, by omega⟩
    · have hne : 2 + i ≠ e := by
        intro heq
        rw [heq] at hc
        exact hc he
      rw [if_neg hc, bind_of_eq (setAt_eq h0 (by omega))]
      exact nameLoop_some h1 he n (by omega) (by omega)

theorem save_loose (r : Int) {k : Keo} (h : Loose k) :
    ∃ r' k' out, save r k = some (r', k', out) ∧ Loose k' := by
  rw [save_eq h.lo h.hi h.len r]
  split
  · exact ⟨_, _, _, rfl, h⟩
  · split
    · exact ⟨_, _, _, rfl, .ite (h.of_same rfl rfl rfl rfl rfl rfl) h⟩
    · exact ⟨_, _, _, rfl, h⟩

/-- `next` is a state to go on from, with `Loose`, or the end. -/
def GoesOn (x : Option Next) : Prop := ∃ next, x = some next ∧ ∀ k, next = .go k → Loose k

theorem goesOn_go {k : Keo} (h : Loose k) : GoesOn (some (.go k)) :=
  ⟨_, rfl, fun _ hk => by cases hk; exact h⟩

theorem goesOn_exited (k : Keo) : GoesOn (some (.exited k)) := ⟨_, rfl, fun _ hk => nomatch hk⟩

theorem setMsg_goesOn (s : List UInt8) {k : Keo} (h : Loose k) : GoesOn ((setMsg s k).map .go) := by
  obtain ⟨k', hrun, hl⟩ := setMsg_loose s h
  rw [hrun]
  exact goesOn_go hl

theorem doSave_goesOn (r : Int) {k : Keo} (h : Loose k) : GoesOn (doSave r k) := by
  obtain ⟨r', k', out, hrun, hl⟩ := save_loose r h
  unfold doSave
  rw [bind_of_eq hrun]
  dsimp only
  split
  · exact goesOn_exited k'
  · exact setMsg_goesOn _ hl

theorem execCmd_goesOn (r : Int) {k : Keo} (h : Loose k) : GoesOn (execCmd r k) := by
  have h0 := h.cmdlen0
  have h1 := h.cmdlen1
  have hsame : ∀ bs, ∃ b, sameFrom k.cmd 0 bs = some b := fun bs =>
    sameFrom_some h1 h.cmdEnd bs (Int.le_refl 0) h0
  have hren : isRename k = some (k.cmd 0 == 119 && k.cmd 1 == 32) := by
    unfold isRename
    rw [bind_of_eq (getAt_eq (by omega) (by omega))]
    by_cases hc : k.cmd 0 = 119
    · rw [if_pos hc, getAt_eq (by omega) (by omega), hc]
      rfl
    · rw [if_neg hc, beq_eq_false_iff_ne.mpr hc]
      rfl
  obtain ⟨isW, hw⟩ := hsame [119]
  obtain ⟨isQ, hq⟩ := hsame [113]
  obtain ⟨isQuit, hquit⟩ := hsame [113, 33]
  obtain ⟨isWq, hwq⟩ := hsame [119, 113]
  unfold execCmd
  rw [bind_of_eq hw]
  cases isW with
  | true => exact doSave_goesOn r h
  | false =>
    rw [if_neg (by decide), bind_of_eq hren]
    cases hname : (k.cmd 0 == 119 && k.cmd 1 == 32) with
    | true =>
      -- the command has at least two characters, so the copy starts before its NUL
      have hlen : 2 ≤ k.cmdlen := by
        rw [Bool.and_eq_true, beq_iff_eq, beq_iff_eq] at hname
        have hne0 : k.cmdlen ≠ 0 := by
          intro he
          have hend := h.cmdEnd
          rw [he, hname.1] at hend
          exact absurd hend (by decide)
        have hne1 : k.cmdlen ≠ 1 := by
          intro he
          have hend := h.cmdEnd
          rw [he, hname.2] at hend
          exact absurd hend (by decide)
        omega
      obtain ⟨i, fname, hrun, hi0, hi1⟩ :=
        @nameLoop_some k.cmd k.cmdlen h1 h.cmdEnd 127 0 k.fname (Int.le_refl 0) (by omega)
      rw [if_pos rfl, bind_of_eq hrun]
      dsimp only
      rw [bind_of_eq (setAt_eq hi0 hi1)]
      exact doSave_goesOn r ⟨h.lo, h.hi, h.len, h0, h1, h.cmdEnd, ⟨i, hi0, hi1, put_self _ _ _⟩,
        h.msg⟩
    | false =>
      rw [if_neg (by decide), bind_of_eq hq]
      cases isQ with
      | true =>
        rw [if_pos rfl]
        split
        · exact setMsg_goesOn _ h
        · exact goesOn_exited k
      | false =>
        rw [if_neg (by decide), bind_of_eq hquit]
        cases isQuit with
        | true => exact goesOn_exited k
        | false =>
          rw [if_neg (by decide), bind_of_eq hwq]
          cases isWq with
          | true => exact doSave_goesOn r h
          | false => exact setMsg_goesOn badCmd h

theorem cmdKey_goesOn (c r : Int) {k : Keo} (h : KeoInv k) : GoesOn (cmdKey c r k) := by
  have hl := h.toLoose
  have h0 := h.cmdlen0
  have h1 := h.cmdlen1
  unfold cmdKey
  split
  · exact goesOn_go (hl.of_same rfl rfl rfl rfl rfl rfl)
  split
  · exact execCmd_goesOn r (hl.of_same rfl rfl rfl rfl rfl rfl)
  split
  · split
    · rw [bind_of_eq (setAt_eq (by omega) (by omega))]
      exact goesOn_go ⟨hl.lo, hl.hi, hl.len, by dsimp only; omega, by dsimp only; omega,
        put_self _ _ _, hl.fname, hl.msg⟩
    · exact goesOn_go hl
  split
  · next hc =>
    rw [bind_of_eq (setAt_eq h0 (by omega)), bind_of_eq (setAt_eq (by omega) (by omega))]
    exact goesOn_go ⟨hl.lo, hl.hi, hl.len, by dsimp only; omega, by dsimp only; omega,
      put_self _ _ _, hl.fname, hl.msg⟩
  · exact goesOn_go hl

/-! ## Runs -/

/-- `next` is a state between keys, or the end. -/
def Waiting (x : Option Next) : Prop := ∃ next, x = some next ∧ ∀ k, next = .go k → KeoInv k

theorem drawNext_waiting {next : Next} (h : ∀ k, next = .go k → Loose k) :
    Waiting (drawNext next) := by
  cases next with
  | exited k => exact ⟨_, rfl, fun _ hk => nomatch hk⟩
  | go k =>
    obtain ⟨k', out, hrun, hinv⟩ := draw_inv (h k rfl)
    rw [drawNext, bind_of_eq hrun]
    exact ⟨_, rfl, fun _ hk => by cases hk; exact hinv⟩

theorem keyStep_waiting (c r : Int) {k : Keo} (h : KeoInv k) : Waiting (keyStep c r k) := by
  have hinv : ∀ msg : Int → UInt8, msg 0 = 0 → KeoInv { k with msg := msg } := fun msg hmsg =>
    ⟨⟨h.lo, h.hi, h.len, h.cmdlen0, h.cmdlen1, h.cmdEnd, h.fname, 0,
      Int.le_refl 0, by decide, hmsg⟩,
      h.cy0, h.cy1, h.cx0, h.cx1, h.top0, h.top1, h.top2⟩
  have hk := hinv (put k.msg 0 0) (put_self _ _ _)
  have hgo : GoesOn (dispatch c r { k with msg := put k.msg 0 0 }) := by
    unfold dispatch
    split
    · obtain ⟨k', hrun, hl⟩ := normalKey_loose c hk
      rw [hrun]
      exact goesOn_go hl
    · obtain ⟨k', hrun, hl⟩ := insertKey_loose c hk
      rw [hrun]
      exact goesOn_go hl
    · exact cmdKey_goesOn c r hk
  obtain ⟨next, hrun, hl⟩ := hgo
  unfold keyStep
  rw [bind_of_eq (setAt_eq (by omega) (by omega)), bind_of_eq hrun]
  exact drawNext_waiting hl

theorem keyRun_waiting : ∀ (keys : List (Int × Int)) {next : Next}, (∀ k, next = .go k → KeoInv k) →
    Waiting (keyRun keys next)
  | [], next, h => ⟨next, by rw [keyRun], h⟩
  | (c, r) :: keys, .exited k, h => ⟨_, by rw [keyRun]; simp, h⟩
  | (c, r) :: keys, .go k, h => by
    obtain ⟨next, hrun, hinv⟩ := keyStep_waiting c r (h k rfl)
    rw [keyRun, bind_of_eq hrun]
    exact keyRun_waiting keys hinv

/-! ## Opening a file -/

theorem load_loose (file : Option (List UInt8)) {k : Keo} (h : Loose k) :
    ∃ k', load file k = some k' ∧ Loose k' := by
  obtain ⟨t, n, msg, hload, hmsg, hlo, hhi, hlen, -⟩ := load_reads file k
  exact ⟨_, hload, hlo, hhi, hlen, h.cmdlen0, h.cmdlen1, h.cmdEnd, h.fname,
    ⟨0, Int.le_refl 0, by decide, hmsg⟩⟩

theorem argLoop_some : ∀ (arg : List UInt8) {i : Int} {fname : Int → UInt8}, 0 ≤ i → i ≤ 127 →
    ∃ i' fname', argLoop arg i fname = some (i', fname') ∧ 0 ≤ i' ∧ i' < 128
  | [], i, fname, h0, h1 => ⟨i, fname, rfl, h0, by omega⟩
  | c :: arg, i, fname, h0, h1 => by
    rw [argLoop]
    by_cases hi : i < 127
    · rw [if_pos hi, bind_of_eq (setAt_eq h0 (by omega))]
      exact argLoop_some arg (by omega) (by omega)
    · rw [if_neg hi]
      exact ⟨i, fname, rfl, h0, by omega⟩

theorem opened_waiting (arg : List UInt8) (file : Option (List UInt8)) :
    Waiting (opened arg file) := by
  unfold opened
  split
  · exact ⟨_, rfl, fun _ hk => nomatch hk⟩
  · obtain ⟨i, fname, hrun, hi0, hi1⟩ := @argLoop_some arg 0 Keo.start.fname (by omega) (by omega)
    have hstart : Loose { Keo.start with fname := put fname i 0 } := by
      refine ⟨?_, ?_, fun _ _ _ => ?_, ?_, ?_, rfl, ⟨i, hi0, hi1, put_self _ _ _⟩,
        ⟨0, Int.le_refl 0, by decide, rfl⟩⟩
      · show (1 : Int) ≤ 1
        omega
      · show (1 : Int) ≤ 256
        omega
      · show (0 : Int) ≤ 0 ∧ (0 : Int) ≤ 255
        omega
      · show (0 : Int) ≤ 0
        omega
      · show (0 : Int) ≤ 127
        omega
    obtain ⟨k, hload, hl⟩ := load_loose file hstart
    rw [bind_of_eq hrun]
    dsimp only
    rw [bind_of_eq (setAt_eq hi0 hi1), bind_of_eq hload]
    exact drawNext_waiting fun _ hk => by cases hk; exact hl

/-- **The editor is in order whenever it waits for a key**, for every file name, every file and
every sequence of keys; and no step on the way leaves an array. -/
theorem keo_run (arg : List UInt8) (file : Option (List UInt8)) (keys : List (Int × Int)) :
    ∃ next, (opened arg file >>= keyRun keys) = some next ∧ ∀ k, next = .go k → KeoInv k := by
  obtain ⟨next, hopen, hinv⟩ := opened_waiting arg file
  rw [bind_of_eq hopen]
  exact keyRun_waiting keys hinv

end InaneOS.User
