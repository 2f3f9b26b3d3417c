import InaneOS.Lib.Tab
import InaneOS.User.Keo

/-!
# Lines as lists

`Text.row` is a line cut to its length and `Text.rows` the list of the first lines.
One lemma for each loop of the editor says which characters or rows it moves; the
characters behind a line's length never appear in them.
-/

namespace InaneOS.User

open InaneOS.Lib

def Text.row (t : Text) (i : Int) : List UInt8 := tab (t.lens i).toNat fun j => t.lines i j

def Text.rows (t : Text) (n : Int) : List (List UInt8) := tab n.toNat fun i => t.row i

theorem row_def (t : Text) (i : Int) : t.row i = tab (t.lens i).toNat fun j => t.lines i j := rfl

theorem row_nil {t : Text} {i : Int} (h : t.lens i = 0) : t.row i = [] := by
  rw [row_def, h]
  rfl

theorem text_ext {t t' : Text} (h1 : t.lines = t'.lines) (h2 : t.lens = t'.lens) : t = t' := by
  cases t
  cases t'
  cases h1
  cases h2
  rfl

/-- A row is known by its length and its characters. -/
theorem row_ext {t t' : Text} {i i' : Int} (hlen : t'.lens i' = t.lens i)
    (h : ∀ j : Int, 0 ≤ j → j < t.lens i → t'.lines i' j = t.lines i j) : t'.row i' = t.row i := by
  unfold Text.row
  rw [hlen]
  exact tab_congr fun j hj => h j (by omega) (by omega)

theorem row_eq_tab {t : Text} {i : Int} {n : Nat} {f : Nat → UInt8} (hlen : (t.lens i).toNat = n)
    (h : ∀ j < n, t.lines i j = f j) : t.row i = tab n f := by
  unfold Text.row
  rw [hlen]
  exact tab_congr h

/-! ## Single accesses -/

theorem len_eq {t : Text} {i : Int} (h0 : 0 ≤ i) (h1 : i < 256) : t.len i = some (t.lens i) :=
  getAt_eq h0 h1

theorem setLen_eq {t : Text} {i : Int} (v : Int) (h0 : 0 ≤ i) (h1 : i < 256) :
    t.setLen i v = some { t with lens := put t.lens i v } := by
  unfold Text.setLen
  rw [bind_of_eq (setAt_eq h0 h1)]

theorem char_eq {t : Text} {i j : Int} (h0 : 0 ≤ i) (h1 : i < 256) (h2 : 0 ≤ j) (h3 : j < 256) :
    t.char i j = some (t.lines i j) := by
  unfold Text.char
  rw [bind_of_eq (getAt_eq h0 h1)]
  exact getAt_eq h2 h3

theorem setChar_eq {t : Text} {i j : Int} (c : UInt8) (h0 : 0 ≤ i) (h1 : i < 256) (h2 : 0 ≤ j)
    (h3 : j < 256) :
    t.setChar i j c =
      some { t with lines := fun a b => if a = i ∧ b = j then c else t.lines a b } := by
  unfold Text.setChar
  rw [bind_of_eq (getAt_eq h0 h1), bind_of_eq (setAt_eq h2 h3), bind_of_eq (setAt_eq h0 h1)]
  congr 2
  funext a b
  unfold put
  by_cases ha : a = i
  · by_cases hb : b = j <;> simp [ha, hb]
  · simp [ha]

/-! ## Characters -/

/-- Characters move to another line, or to the left. -/
theorem copyChars_eq : ∀ (n : Nat) {di dj si sj : Int} {t : Text}, 0 ≤ di → di < 256 → 0 ≤ dj →
    dj + n ≤ 256 → 0 ≤ si → si < 256 → 0 ≤ sj → sj + n ≤ 256 → (di ≠ si ∨ dj < sj) →
    copyChars n di dj si sj t = some { t with lines := fun a b =>
      if a = di ∧ dj ≤ b ∧ b < dj + n then t.lines si (sj + (b - dj)) else t.lines a b }
  | 0, di, dj, si, sj, t, _, _, _, _, _, _, _, _, _ => by
    rw [copyChars]
    exact congrArg some (text_ext (by funext a b; dsimp only; rw [if_neg (by omega)]) rfl)
  | n + 1, di, dj, si, sj, t, h1, h2, h3, h4, h5, h6, h7, h8, h9 => by
    rw [copyChars, bind_of_eq (char_eq h5 h6 h7 (by omega)),
      bind_of_eq (setChar_eq _ h1 h2 h3 (by omega)),
      copyChars_eq n h1 h2 (by omega) (by omega) h5 h6 (by omega) (by omega) (by omega)]
    congr 2
    funext a b
    dsimp only
    by_cases hab : a = di ∧ b = dj
    · obtain ⟨rfl, rfl⟩ := hab
      rw [if_neg (by omega), if_pos ⟨rfl, rfl⟩, if_pos (by omega), Int.sub_self, Int.add_zero]
    · by_cases hr : a = di ∧ dj + 1 ≤ b ∧ b < dj + 1 + n
      · -- what is read here was not written before
        rw [if_pos hr, if_neg (by omega), if_pos (by omega)]
        congr 1
        omega
      · rw [if_neg hr, if_neg hab, if_neg (by omega)]

/-- Characters of a line move one to the right. -/
theorem slideRight_eq : ∀ (n : Nat) {i j : Int} {t : Text}, 0 ≤ i → i < 256 → 0 ≤ j - n → j < 256 →
    slideRight n i j t = some { t with lines := fun a b =>
      if a = i ∧ j - n < b ∧ b ≤ j then t.lines i (b - 1) else t.lines a b }
  | 0, i, j, t, _, _, _, _ => by
    rw [slideRight]
    exact congrArg some (text_ext (by funext a b; dsimp only; rw [if_neg (by omega)]) rfl)
  | n + 1, i, j, t, h1, h2, h3, h4 => by
    rw [slideRight, bind_of_eq (char_eq h1 h2 (by omega) (by omega)),
      bind_of_eq (setChar_eq _ h1 h2 (by omega) h4),
      slideRight_eq n h1 h2 (by omega) (by omega)]
    congr 2
    funext a b
    dsimp only
    by_cases hab : a = i ∧ b = j
    · obtain ⟨rfl, rfl⟩ := hab
      rw [if_neg (by omega), if_pos ⟨rfl, rfl⟩, if_pos (by omega)]
    · by_cases hr : a = i ∧ j - 1 - n < b ∧ b ≤ j - 1
      · rw [if_pos hr, if_neg (by omega), if_pos (by omega)]
      · rw [if_neg hr, if_neg hab, if_neg (by omega)]

/-! ## Lines -/

/-- Line `src` is copied over line `dst`. -/
theorem copyLine_spec {dst src : Int} {t : Text} (hd0 : 0 ≤ dst) (hd1 : dst < 256) (hs0 : 0 ≤ src)
    (hs1 : src < 256) (hne : dst ≠ src) (h0 : 0 ≤ t.lens src) (h1 : t.lens src ≤ 255) :
    ∃ t', copyLine dst src t = some t' ∧
      (∀ r, t'.lens r = if r = dst then t.lens src else t.lens r) ∧
      ∀ r, t'.row r = if r = dst then t.row src else t.row r := by
  unfold copyLine
  rw [bind_of_eq (len_eq hs0 hs1),
    bind_of_eq (copyChars_eq _ hd0 hd1 (by omega) (by omega) hs0 hs1 (by omega) (by omega)
      (Or.inl hne)),
    bind_of_eq (len_eq hs0 hs1), setLen_eq _ hd0 hd1]
  refine ⟨_, rfl, fun r => rfl, fun r => ?_⟩
  split
  · next hr =>
    refine row_ext (by simp [hr]) fun j hj0 hj1 => ?_
    simp only
    rw [if_pos (by omega)]
    congr 1
    omega
  · next hr =>
    refine row_ext (put_of_ne hr) fun j _ _ => ?_
    simp only
    rw [if_neg (by omega)]

theorem shiftUp_spec : ∀ (n : Nat) {i : Int} {t : Text}, 0 ≤ i → i + n < 256 →
    (∀ r, i < r → r ≤ i + n → 0 ≤ t.lens r ∧ t.lens r ≤ 255) →
    ∃ t', shiftUp n i t = some t' ∧
      (∀ r, t'.lens r = if i ≤ r ∧ r < i + n then t.lens (r + 1) else t.lens r) ∧
      ∀ r, t'.row r = if i ≤ r ∧ r < i + n then t.row (r + 1) else t.row r
  | 0, i, t, _, _, _ =>
    ⟨t, rfl, fun r => by rw [if_neg (by omega)], fun r => by rw [if_neg (by omega)]⟩
  | n + 1, i, t, h0, hn, hlen => by
    obtain ⟨hl0, hl1⟩ := hlen (i + 1) (by omega) (by omega)
    obtain ⟨t1, hrun, hlens, hrows⟩ :=
      copyLine_spec h0 (by omega) (by omega) (by omega) (by omega) hl0 hl1
    have hlen1 : ∀ r, i + 1 < r → r ≤ i + 1 + n → 0 ≤ t1.lens r ∧ t1.lens r ≤ 255 := by
      intro r hr1 hr2
      rw [hlens, if_neg (by omega)]
      exact hlen r (by omega) (by omega)
    obtain ⟨t2, hrun2, hlens2, hrows2⟩ := shiftUp_spec n (by omega) (by omega) hlen1
    refine ⟨t2, ?_, fun r => ?_, fun r => ?_⟩
    · rw [shiftUp, bind_of_eq hrun, hrun2]
    · rw [hlens2, hlens, hlens]
      grind
    · rw [hrows2, hrows, hrows]
      grind

theorem shiftDown_spec : ∀ (n : Nat) {i : Int} {t : Text}, 0 ≤ i - n → i < 256 →
    (∀ r, i - n ≤ r → r < i → 0 ≤ t.lens r ∧ t.lens r ≤ 255) →
    ∃ t', shiftDown n i t = some t' ∧
      (∀ r, t'.lens r = if i - n < r ∧ r ≤ i then t.lens (r - 1) else t.lens r) ∧
      ∀ r, t'.row r = if i - n < r ∧ r ≤ i then t.row (r - 1) else t.row r
  | 0, i, t, _, _, _ =>
    ⟨t, rfl, fun r => by rw [if_neg (by omega)], fun r => by rw [if_neg (by omega)]⟩
  | n + 1, i, t, h0, hn, hlen => by
    obtain ⟨hl0, hl1⟩ := hlen (i - 1) (by omega) (by omega)
    obtain ⟨t1, hrun, hlens, hrows⟩ :=
      copyLine_spec (by omega) hn (by omega) (by omega) (by omega) hl0 hl1
    have hlen1 : ∀ r, i - 1 - n ≤ r → r < i - 1 → 0 ≤ t1.lens r ∧ t1.lens r ≤ 255 := by
      intro r hr1 hr2
      rw [hlens, if_neg (by omega)]
      exact hlen r (by omega) (by omega)
    obtain ⟨t2, hrun2, hlens2, hrows2⟩ := shiftDown_spec n (by omega) (by omega) hlen1
    refine ⟨t2, ?_, fun r => ?_, fun r => ?_⟩
    · rw [shiftDown, bind_of_eq hrun, hrun2]
    · rw [hlens2, hlens, hlens]
      grind
    · rw [hrows2, hrows, hrows]
      grind

end InaneOS.User
