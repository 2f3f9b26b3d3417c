import Mathlib.Data.List.Basic
import Mathlib.Data.List.Infix
import Mathlib.Data.List.Count
import Mathlib.Tactic.Common

/-!
# Reading lines into a bounded table

A stream of characters is read into at most `m` lines of at most `w` characters
each: a separator ends the line as long as another one can be started, a character
is kept as long as the line has room, and what does not fit is dropped without a
word. `text_eq_iff` says when nothing was dropped.

The proof follows the stream from its end: the last character is kept or not, and
the text read so far is never longer than the stream (`text_length_le`), so a
character once dropped is missed for good.
-/

namespace InaneOS.Lib

variable {α : Type}

/-! ## Joining -/

/-- Every line with a separator behind it. -/
def joinLines (nl : α) (ls : List (List α)) : List α := ls.flatMap fun l => l ++ [nl]

theorem joinLines_append (nl : α) (ls ls' : List (List α)) :
    joinLines nl (ls ++ ls') = joinLines nl ls ++ joinLines nl ls' := List.flatMap_append

theorem joinLines_cons (nl : α) (l : List α) (ls : List (List α)) :
    joinLines nl (l :: ls) = l ++ nl :: joinLines nl ls := by
  simp [joinLines]

theorem joinLines_single (nl : α) (l : List α) : joinLines nl [l] = l ++ [nl] := by simp [joinLines]

theorem joinLines_blank (nl : α) :
    ∀ n : Nat, joinLines nl (List.replicate n []) = List.replicate n nl
  | 0 => rfl
  | n + 1 => by
    rw [List.replicate_succ, joinLines_cons, joinLines_blank nl n, List.replicate_succ]
    rfl

/-- Complete lines end with a separator. -/
theorem joinLines_getLast? (nl : α) {ls : List (List α)} (h : ls ≠ []) :
    (joinLines nl ls).getLast? = some nl := by
  obtain ⟨ls', l, rfl⟩ : ∃ ls' l, ls = ls' ++ [l] :=
    ⟨ls.dropLast, ls.getLast h, (List.dropLast_concat_getLast h).symm⟩
  rw [joinLines_append, joinLines_single, ← List.append_assoc]
  exact List.getLast?_concat ..

/-! ## Reading -/

/-- The lines that are complete and the one being read. -/
structure Lines (α : Type) where
  done : List (List α)
  cur : List α

/-- What the lines say. -/
def Lines.text (nl : α) (p : Lines α) : List α := joinLines nl p.done ++ p.cur

/-- No separator stands in a line. -/
structure Lines.Cut (nl : α) (p : Lines α) : Prop where
  done : ∀ l ∈ p.done, nl ∉ l
  cur : nl ∉ p.cur

variable [DecidableEq α] (nl : α) (m w : Nat)

/-- One more character. -/
def Lines.read (c : α) (p : Lines α) : Lines α :=
  if c = nl then
    if p.done.length + 1 < m then ⟨p.done ++ [p.cur], []⟩ else p
  else if p.cur.length < w then ⟨p.done, p.cur ++ [c]⟩
  else p

/-- A whole stream. -/
def readLines (cs : List α) : Lines α := cs.foldl (fun p c => p.read nl m w c) ⟨[], []⟩

/-- The character is kept. -/
def Lines.Keeps (c : α) (p : Lines α) : Prop :=
  c = nl ∧ p.done.length + 1 < m ∨ c ≠ nl ∧ p.cur.length < w

variable {nl m w}

theorem count_joinLines : ∀ {ls : List (List α)}, (∀ l ∈ ls, nl ∉ l) →
    (joinLines nl ls).count nl = ls.length
  | [], _ => rfl
  | l :: ls, h => by
    have hl : l.count nl = 0 := List.count_eq_zero.mpr (h l (by simp))
    have ih := count_joinLines fun x hx => h x (List.mem_cons_of_mem _ hx)
    rw [joinLines_cons, List.count_append, List.count_cons_self, hl, ih, List.length_cons,
      Nat.zero_add]

/-! ## One character -/

theorem readLines_snoc (cs : List α) (c : α) :
    readLines nl m w (cs ++ [c]) = (readLines nl m w cs).read nl m w c := List.foldl_concat ..

theorem read_keeps {c : α} {p : Lines α} (h : p.Keeps nl m w c) :
    (p.read nl m w c).text nl = p.text nl ++ [c] := by
  rcases h with ⟨rfl, hroom⟩ | ⟨hc, hroom⟩
  · rw [Lines.read, if_pos rfl, if_pos hroom, Lines.text, Lines.text, joinLines_append,
      joinLines_single, List.append_nil, List.append_assoc]
  · rw [Lines.read, if_neg hc, if_pos hroom, Lines.text, Lines.text, List.append_assoc]

theorem read_drops {c : α} {p : Lines α} (h : ¬ p.Keeps nl m w c) : p.read nl m w c = p := by
  unfold Lines.Keeps at h
  unfold Lines.read
  split
  · next hc => exact if_neg fun hroom => h (Or.inl ⟨hc, hroom⟩)
  · next hc => exact if_neg fun hroom => h (Or.inr ⟨hc, hroom⟩)

theorem read_cut {p : Lines α} (c : α) (h : p.Cut nl) : (p.read nl m w c).Cut nl := by
  unfold Lines.read
  split
  · split
    · refine ⟨fun l hl => ?_, List.not_mem_nil⟩
      rcases List.mem_append.mp hl with hold | hnew
      · exact h.done l hold
      · rw [List.mem_singleton.mp hnew]
        exact h.cur
    · exact h
  · next hc =>
    split
    · refine ⟨h.done, fun hmem => ?_⟩
      rcases List.mem_append.mp hmem with hold | hnew
      · exact h.cur hold
      · exact hc (List.mem_singleton.mp hnew).symm
    · exact h

/-- There is always room for the line being read. -/
theorem read_done_lt {p : Lines α} (c : α) (h : p.done.length < m) :
    (p.read nl m w c).done.length < m := by
  unfold Lines.read
  split
  · split
    · next hroom =>
      rw [List.length_append]
      exact hroom
    · exact h
  · split
    · exact h
    · exact h

/-! ## The whole stream -/

theorem readLines_done_lt (hm : 0 < m) (cs : List α) : (readLines nl m w cs).done.length < m := by
  induction cs using List.reverseRecOn with
  | nil => exact hm
  | append_singleton cs c ih =>
    rw [readLines_snoc]
    exact read_done_lt c ih

theorem readLines_cut (cs : List α) : (readLines nl m w cs).Cut nl := by
  induction cs using List.reverseRecOn with
  | nil => exact ⟨fun l hl => absurd hl List.not_mem_nil, List.not_mem_nil⟩
  | append_singleton cs c ih =>
    rw [readLines_snoc]
    exact read_cut c ih

/-- Nothing is made up. -/
theorem text_length_le (cs : List α) : ((readLines nl m w cs).text nl).length ≤ cs.length := by
  induction cs using List.reverseRecOn with
  | nil => exact Nat.le_refl 0
  | append_singleton cs c ih =>
    rw [readLines_snoc, List.length_append]
    by_cases hc : (readLines nl m w cs).Keeps nl m w c
    · rw [read_keeps hc, List.length_append]
      exact Nat.add_le_add_right ih _
    · rw [read_drops hc]
      exact Nat.le_add_right_of_le ih

/-- The text so far is whole exactly if it was and the last character is kept. -/
theorem text_snoc_iff (cs : List α) (c : α) :
    (readLines nl m w (cs ++ [c])).text nl = cs ++ [c] ↔
      (readLines nl m w cs).text nl = cs ∧ (readLines nl m w cs).Keeps nl m w c := by
  rw [readLines_snoc]
  by_cases hc : (readLines nl m w cs).Keeps nl m w c
  · rw [read_keeps hc]
    exact ⟨fun h => ⟨List.append_cancel_right h, hc⟩, fun h => by rw [h.1]⟩
  · rw [read_drops hc]
    constructor
    · intro h
      have hlen := @text_length_le _ _ nl m w cs
      rw [h, List.length_append, List.length_singleton] at hlen
      exact absurd hlen (Nat.not_succ_le_self _)
    · exact fun h => absurd h.2 hc

omit [DecidableEq α] in
/-- A run without separators at the end of the text lies in the last line. -/
theorem suffix_cur {p : Lines α} {l : List α} (hl : l <:+ p.text nl) (hn : nl ∉ l) :
    l <:+ p.cur := by
  rcases List.suffix_or_suffix_of_suffix hl (List.suffix_append (joinLines nl p.done)
    p.cur) with hin | hout
  · exact hin
  · -- what stands before the last line ends with a separator
    obtain ⟨x, rfl⟩ := hout
    obtain ⟨y, hy⟩ := hl
    have hx : y ++ x = joinLines nl p.done := by
      rw [Lines.text, ← List.append_assoc] at hy
      exact List.append_cancel_right hy
    by_cases hxn : x = []
    · rw [hxn]
      exact List.suffix_refl _
    · have hdone : p.done ≠ [] := by
        intro hd
        rw [hd] at hx
        exact hxn (List.append_eq_nil_iff.mp hx).2
      have hlast := joinLines_getLast? nl hdone
      rw [← hx, List.getLast?_append_of_ne_nil _ hxn] at hlast
      exact absurd (List.mem_append_left p.cur (List.mem_of_getLast? hlast)) hn

/-- Few enough separators, and no long run without one. -/
def Fits (nl : α) (m w : Nat) (cs : List α) : Prop :=
  cs.count nl < m ∧ ∀ l, l <:+: cs → nl ∉ l → l.length ≤ w

/-- One character more fits exactly if it is kept. -/
theorem fits_snoc {cs : List α} {c : α} (htext : (readLines nl m w cs).text nl = cs) :
    Fits nl m w (cs ++ [c]) ↔ Fits nl m w cs ∧ (readLines nl m w cs).Keeps nl m w c := by
  have hcut := @readLines_cut _ _ nl m w cs
  generalize readLines nl m w cs = p at htext hcut ⊢
  have hcount : cs.count nl = p.done.length := by
    rw [← htext, Lines.text, List.count_append, count_joinLines hcut.done,
      List.count_eq_zero.mpr hcut.cur, Nat.add_zero]
  unfold Fits Lines.Keeps
  rw [List.count_append, hcount]
  by_cases hc : c = nl
  · -- a run without separators does not reach the end
    have hrun : ∀ l, nl ∉ l → (l <:+: cs ++ [c] ↔ l <:+: cs) := by
      intro l hl
      rw [List.infix_concat_iff, List.suffix_concat_iff]
      constructor
      · intro h
        rcases h with (rfl | ⟨t, rfl, -⟩) | hin
        · exact List.nil_infix
        · exact absurd (by simp [hc]) hl
        · exact hin
      · exact Or.inr
    have hone : [c].count nl = 1 := by rw [hc, List.count_singleton_self]
    rw [hone]
    constructor
    · intro h
      obtain ⟨hfew, hshort⟩ := h
      exact ⟨⟨by omega, fun l hl hn => hshort l ((hrun l hn).mpr hl) hn⟩, Or.inl ⟨hc, hfew⟩⟩
    · intro h
      obtain ⟨⟨-, hshort⟩, hkeep⟩ := h
      refine ⟨?_, fun l hl hn => hshort l ((hrun l hn).mp hl) hn⟩
      rcases hkeep with ⟨-, hroom⟩ | ⟨hne, -⟩
      · exact hroom
      · exact absurd hc hne
  · have hzero : [c].count nl = 0 := List.count_eq_zero.mpr (by simpa using Ne.symm hc)
    rw [hzero, Nat.add_zero]
    constructor
    · intro h
      obtain ⟨hfew, hshort⟩ := h
      refine ⟨⟨hfew, fun l hl hn => hshort l (List.infix_append_of_infix_left hl) hn⟩,
        Or.inr ⟨hc, ?_⟩⟩
      -- the last line with the character is such a run
      have hlast := hshort (p.cur ++ [c])
        (by rw [← htext, Lines.text, List.append_assoc]; exact List.infix_append_right)
        (by simp [hcut.cur, Ne.symm hc])
      rw [List.length_append, List.length_singleton] at hlast
      exact hlast
    · intro h
      obtain ⟨⟨hfew, hshort⟩, hkeep⟩ := h
      refine ⟨hfew, fun l hl hn => ?_⟩
      rcases List.infix_concat_iff.mp hl with hsuf | hin
      · rcases List.suffix_concat_iff.mp hsuf with rfl | ⟨t, rfl, ht⟩
        · exact Nat.zero_le _
        · rcases hkeep with ⟨he, -⟩ | ⟨-, hroom⟩
          · exact absurd he hc
          · rw [← htext] at ht
            have hle := (suffix_cur ht fun hm => hn (List.mem_append_left _ hm)).length_le
            rw [List.length_append, List.length_singleton]
            omega
      · exact hshort l hin hn

/-- **Nothing is dropped** exactly if the stream has fewer than `m` separators and no run
of more than `w` characters without one. -/
theorem text_eq_iff (hm : 0 < m) (cs : List α) :
    (readLines nl m w cs).text nl = cs ↔ Fits nl m w cs := by
  induction cs using List.reverseRecOn with
  | nil =>
    refine ⟨fun _ => ⟨hm, fun l hl _ => ?_⟩, fun _ => rfl⟩
    rw [List.infix_nil.mp hl]
    exact Nat.zero_le w
  | append_singleton cs c ih =>
    rw [text_snoc_iff]
    constructor
    · intro h
      exact (fits_snoc h.1).mpr ⟨ih.mp h.1, h.2⟩
    · intro h
      have hcs : Fits nl m w cs := by
        refine ⟨?_, fun l hl hn => h.2 l (List.infix_append_of_infix_left hl) hn⟩
        have hfew := h.1
        rw [List.count_append] at hfew
        omega
      have htext := ih.mpr hcs
      exact ⟨htext, ((fits_snoc htext).mp h).2⟩

/-! ## Lines that fit -/

/-- A separator at the end of the stream ends a line. -/
theorem read_sep_done (hm : 1 < m) (p : Lines α) : (p.read nl m w nl).done ≠ [] := by
  rw [Lines.read, if_pos rfl]
  split
  · simp
  · next hfull =>
    rw [← List.length_pos_iff]
    omega

theorem read_chars : ∀ {cs : List α} {p : Lines α}, nl ∉ cs → p.cur.length + cs.length ≤ w →
    cs.foldl (fun p c => p.read nl m w c) p = (⟨p.done, p.cur ++ cs⟩ : Lines α)
  | [], p, _, _ => by rw [List.foldl_nil, List.append_nil]
  | c :: cs, p, hn, hlen => by
    obtain ⟨hc, hcs⟩ := not_or.mp (mt List.mem_cons.mpr hn)
    rw [List.length_cons] at hlen
    have hone : p.read nl m w c = ⟨p.done, p.cur ++ [c]⟩ := by
      rw [Lines.read, if_neg (Ne.symm hc), if_pos (by omega)]
    have hrest := @read_chars cs ⟨p.done, p.cur ++ [c]⟩ hcs (by
      rw [List.length_append, List.length_singleton]
      omega)
    rw [List.foldl_cons, hone, hrest, List.append_assoc]
    rfl

/-- Lines that fit are read as they are. -/
theorem read_joinLines : ∀ {ls done : List (List α)}, (∀ l ∈ ls, l.length ≤ w ∧ nl ∉ l) →
    done.length + ls.length < m →
    (joinLines nl ls).foldl (fun p c => p.read nl m w c) (⟨done, []⟩ : Lines α) = ⟨done ++ ls, []⟩
  | [], done, _, _ => by
    rw [List.append_nil]
    rfl
  | l :: ls, done, hls, hlen => by
    obtain ⟨hw, hn⟩ := hls l (by simp)
    rw [List.length_cons] at hlen
    have hend : Lines.read nl m w nl ⟨done, l⟩ = ⟨done ++ [l], []⟩ := by
      rw [Lines.read, if_pos rfl, if_pos (by dsimp only; omega)]
    have hrest := @read_joinLines ls (done ++ [l]) (fun x hx => hls x (List.mem_cons_of_mem _ hx))
      (by
      rw [List.length_append, List.length_singleton]
      omega)
    rw [joinLines_cons, List.foldl_append, read_chars hn (by simpa using hw), List.foldl_cons,
      List.nil_append, hend, hrest, List.append_assoc]
    rfl

theorem readLines_joinLines {ls : List (List α)} (hls : ∀ l ∈ ls, l.length ≤ w ∧ nl ∉ l)
    (hlen : ls.length < m) : readLines nl m w (joinLines nl ls) = ⟨ls, []⟩ :=
  read_joinLines hls (by simpa using hlen)

/-- A sole line is cut at the width. -/
theorem readLines_line {l : List α} (hn : nl ∉ l) : readLines nl m w l = ⟨[], l.take w⟩ := by
  induction l using List.reverseRecOn with
  | nil =>
    rw [List.take_nil]
    rfl
  | append_singleton l c ih =>
    have hc : c ≠ nl := fun he => hn (by simp [he])
    rw [readLines_snoc, ih fun hm => hn (List.mem_append_left _ hm), Lines.read, if_neg hc]
    dsimp only
    rw [List.length_take]
    by_cases hroom : l.length < w
    · rw [if_pos (by omega), List.take_of_length_le (Nat.le_of_lt hroom),
        List.take_of_length_le (by rw [List.length_append, List.length_singleton]; omega)]
    · rw [if_neg (by omega), List.take_append_of_le_length (by omega)]

end InaneOS.Lib
