import Mathlib.Data.List.Basic
import Mathlib.Data.List.TakeWhile
import Mathlib.Tactic.Common

/-!
# The pieces between separators

`pieces s l` are the maximal nonempty runs of `l` that do not contain the
separator `s`: what a loop "skip separators, take everything up to the next one"
visits. `head_spec` is one round of such a loop, `pieces_append_sep` cuts a list at
a separator.
-/

namespace InaneOS.Lib

variable {α : Type} [DecidableEq α] {s : α}

/-- The pieces of `l`, the first of them continuing `w`. -/
def piecesFrom (s : α) : List α → List α → List (List α)
  | w, [] => if w = [] then [] else [w]
  | w, c :: l =>
    if c = s then (if w = [] then [] else [w]) ++ piecesFrom s [] l
    else piecesFrom s (w ++ [c]) l

/-- The maximal nonempty runs without `s`. -/
def pieces (s : α) (l : List α) : List (List α) := piecesFrom s [] l

theorem pieces_nil : pieces s ([] : List α) = [] := rfl

theorem pieces_sep (l : List α) : pieces s (s :: l) = pieces s l := by
  rw [pieces, piecesFrom, if_pos rfl]
  rfl

theorem piecesFrom_append_sep : ∀ (w a b : List α),
    piecesFrom s w (a ++ s :: b) = piecesFrom s w a ++ pieces s b
  | w, [], b => by
    rw [List.nil_append, piecesFrom.eq_2, if_pos rfl]
    rfl
  | w, c :: a, b => by
    rw [List.cons_append, piecesFrom, piecesFrom]
    split
    · rw [piecesFrom_append_sep [] a b, List.append_assoc]
    · exact piecesFrom_append_sep (w ++ [c]) a b

/-- Cutting at a separator. -/
theorem pieces_append_sep (a b : List α) :
    pieces s (a ++ s :: b) = pieces s a ++ pieces s b := piecesFrom_append_sep [] a b

theorem piecesFrom_word : ∀ {w v : List α}, s ∉ v → w ++ v ≠ [] → piecesFrom s w v = [w ++ v]
  | w, [], _, h => by
    rw [List.append_nil] at h ⊢
    rw [piecesFrom, if_neg h]
  | w, c :: v, hs, h => by
    obtain ⟨hc, hv⟩ := not_or.mp (mt List.mem_cons.mpr hs)
    rw [piecesFrom, if_neg (Ne.symm hc), piecesFrom_word hv (by simp), List.append_assoc]
    rfl

/-- A nonempty run is one piece. -/
theorem pieces_word {v : List α} (hs : s ∉ v) (h : v ≠ []) : pieces s v = [v] :=
  piecesFrom_word hs h

theorem pieces_dropWhile : ∀ (l : List α), pieces s (l.dropWhile (· == s)) = pieces s l
  | [] => rfl
  | c :: l => by
    by_cases hc : c = s
    · rw [hc, pieces_sep, List.dropWhile_cons_of_pos (by simp)]
      exact pieces_dropWhile l
    · rw [List.dropWhile_cons_of_neg (by simpa using hc)]

/-- Every list is a run without separators and a rest that is empty or starts
with one. -/
theorem exists_run : ∀ (l : List α),
    ∃ v r, l = v ++ r ∧ s ∉ v ∧ (r = [] ∨ ∃ r', r = s :: r')
  | [] => ⟨[], [], rfl, by simp, Or.inl rfl⟩
  | c :: l => by
    by_cases hc : c = s
    · exact ⟨[], c :: l, rfl, by simp, Or.inr ⟨l, by rw [hc]⟩⟩
    · obtain ⟨v, r, rfl, hv, hr⟩ := exists_run l
      exact ⟨c :: v, r, rfl, by simp [hv, Ne.symm hc], hr⟩

theorem pieces_run {v r : List α} (hne : v ≠ []) (hv : s ∉ v) (hr : r = [] ∨ ∃ r', r = s :: r') :
    pieces s (v ++ r) = v :: pieces s r := by
  rcases hr with rfl | ⟨r', rfl⟩
  · rw [List.append_nil, pieces_word hv hne, pieces_nil]
  · rw [pieces_append_sep, pieces_word hv hne, pieces_sep]
    rfl

/-- One round: a list that does not start with a separator is its first piece and
a rest. -/
theorem head_spec {c : α} {t : List α} (hc : c ≠ s) :
    ∃ v r, c :: t = v ++ r ∧ v ≠ [] ∧ s ∉ v ∧ (r = [] ∨ ∃ r', r = s :: r') ∧
      pieces s (c :: t) = v :: pieces s r := by
  obtain ⟨v, r, hl, hv, hr⟩ := exists_run (s := s) (c :: t)
  have hne : v ≠ [] := by
    intro he
    subst he
    rcases hr with rfl | ⟨r', rfl⟩
    · simp at hl
    · exact hc (List.cons.inj hl).1
  exact ⟨v, r, hl, hne, hv, hr, by rw [hl, pieces_run hne hv hr]⟩

/-- Pieces are nonempty and free of separators. -/
theorem mem_piecesFrom : ∀ {w l q : List α}, s ∉ w → q ∈ piecesFrom s w l → q ≠ [] ∧ s ∉ q
  | w, [], q, hw, h => by
    rw [piecesFrom] at h
    split at h
    · simp at h
    next hne => rw [List.mem_singleton.mp h]; exact ⟨hne, hw⟩
  | w, c :: l, q, hw, h => by
    rw [piecesFrom] at h
    split at h
    · rcases List.mem_append.mp h with h | h
      · split at h
        · simp at h
        next hne => rw [List.mem_singleton.mp h]; exact ⟨hne, hw⟩
      · exact mem_piecesFrom (by simp) h
    next hc => exact mem_piecesFrom (by simp [hw, Ne.symm hc]) h

theorem mem_pieces {l q : List α} (h : q ∈ pieces s l) : q ≠ [] ∧ s ∉ q :=
  mem_piecesFrom (by simp) h

/-- Without pieces there are only separators. -/
theorem eq_sep_of_pieces_nil : ∀ {l : List α}, pieces s l = [] → ∀ c ∈ l, c = s
  | [], _, c, hc => by simp at hc
  | a :: l, h, c, hc => by
    by_cases ha : a = s
    · rw [ha, pieces_sep] at h
      rcases List.mem_cons.mp hc with rfl | hc
      · exact ha
      · exact eq_sep_of_pieces_nil h c hc
    · obtain ⟨v, r, -, -, -, -, hp⟩ := head_spec (t := l) ha
      rw [hp] at h
      simp at h

end InaneOS.Lib
