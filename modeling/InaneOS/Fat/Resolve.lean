import InaneOS.Fat.Paths
import InaneOS.Lib.Stack

/-!
# What a path means

A path is a run of edits of a list of components: `.` does nothing, `..` takes the
last component off, any other component is added (`resolve`). `abspath` does the
same to a text, and the text spells a list of segments in which empty ones can
occur (`spell`): for a relative path it starts from the current directory with a
slash behind it, whose last segment is empty.

`..` removes a segment, empty or not. So a relative path that begins with `..`
only loses the slash `abspath` has just added, and what follows is one level too
deep: `/A` and `..` give `/A`. With `Lib.Stack` the outcome is exact: the two runs
agree when the path never climbs, or climbs so far that only empty segments are
left of the current directory (`abspath_resolves`).
-/

namespace InaneOS.Fat

open InaneOS.Lib

/-! ## The meaning of a path -/

/-- What a component does to a list of components. -/
def compEdit (v : Str) : Edit Str :=
  if v = [dot] then Edit.skip else if v = [dot, dot] then Edit.pop else Edit.push v

/-- The components a path leads to from `start`. -/
def resolve (start : List Str) (path : Str) : List Str := edits ((comps path).map compEdit) start

/-- How many levels above its start a path goes. -/
def climbs (path : Str) : Nat := climb ((comps path).map compEdit)

/-! ## The text and its segments -/

/-- The text of a list of segments. -/
def spell (segs : List Str) : Str := if segs = [] then [slash] else segs.flatMap (slash :: ·)

/-- `out` is the text of `segs`, which may have one empty segment more in front
once an empty text has been added to. -/
structure Spells (segs : List Str) (out : Str) : Prop where
  text : ∃ t, out = spell t ∧ (segs = t ∨ segs = [] :: t ∧ ∀ c ∈ t, c ≠ [])
  clean : ∀ c ∈ segs, slash ∉ c

theorem spell_ne {t : List Str} (h : t ≠ []) : spell t = t.flatMap (slash :: ·) := by
  rw [spell, if_neg h]

theorem spell_append {t : List Str} (h : t ≠ []) (c : Str) :
    spell (t ++ [c]) = spell t ++ slash :: c := by
  rw [spell_ne h, spell_ne (by simp), List.flatMap_append]
  simp

/-- Only the empty list and the empty segment spell a single slash. -/
theorem spell_short {t : List Str} (h : ¬(spell t).length > 1) : t = [] ∨ t = [[]] := by
  cases t with
  | nil => exact Or.inl rfl
  | cons c t =>
    rw [spell_ne (by simp), List.flatMap_cons, List.length_append, List.length_cons] at h
    have hc : c = [] := List.length_eq_zero_iff.mp (by omega)
    cases t with
    | nil => exact Or.inr (by rw [hc])
    | cons d t =>
      rw [List.flatMap_cons, List.length_append, List.length_cons] at h
      omega

theorem flat_cases (t : List Str) : t.flatMap (slash :: ·) = [] ∨
    ∃ r, t.flatMap (slash :: ·) = slash :: r := by
  cases t with
  | nil => exact Or.inl rfl
  | cons c t => exact Or.inr ⟨c ++ t.flatMap (slash :: ·), rfl⟩

/-- The components of a text are its segments that are not empty. -/
theorem comps_spell {t : List Str} (ht : ∀ c ∈ t, slash ∉ c) :
    comps (spell t) = t.filter (· ≠ []) := by
  have hflat : ∀ t : List Str, (∀ c ∈ t, slash ∉ c) →
      comps (t.flatMap (slash :: ·)) = t.filter (· ≠ []) := by
    intro t
    induction t with
    | nil =>
      intro _
      rfl
    | cons c t ih =>
      intro ht
      rw [List.flatMap_cons, List.cons_append, comps, pieces_sep]
      have ht' := ih fun d hd => ht d (List.mem_cons_of_mem _ hd)
      by_cases hc : c = []
      · rw [List.filter_cons_of_neg (by simp [hc]), hc, List.nil_append]
        exact ht'
      · rw [List.filter_cons_of_pos (by simp [hc]),
          pieces_run hc (ht c (List.mem_cons_self ..)) (flat_cases t)]
        exact congrArg (c :: ·) ht'
  by_cases h : t = []
  · rw [h]
    decide
  · rw [spell_ne h]
    exact hflat t ht

/-- `..` walks back over the last segment. -/
theorem upLoop_eq (a : Str) {v : Str} (hv : slash ∉ v) : ∀ j, j ≤ v.length →
    upLoop (a ++ slash :: v) (a.length + 1 + j) = a.length + 1
  | 0, _ => by
    rw [Nat.add_zero, upLoop, if_neg]
    intro h
    exact h.2 (by rw [List.getElem?_append_right (Nat.le_refl _), Nat.sub_self]; rfl)
  | j + 1, hj => by
    rw [← Nat.add_assoc, upLoop, if_pos, upLoop_eq a hv j (by omega)]
    refine ⟨by omega, fun h => ?_⟩
    rw [List.getElem?_append_right (by omega), show a.length + 1 + j - a.length = j + 1 by omega,
      List.getElem?_cons_succ] at h
    exact hv (List.mem_of_getElem? h)

/-- **`..` removes the last segment**, empty or not. -/
theorem upPath_spell {t : List Str} (ht : ∀ c ∈ t, slash ∉ c) :
    upPath (spell t) = spell t.dropLast := by
  rcases List.eq_nil_or_concat t with rfl | ⟨t, c, rfl⟩
  · decide
  · have hc : slash ∉ c := ht c (by simp)
    have htext : spell (t.concat c) = t.flatMap (slash :: ·) ++ slash :: c := by
      rw [List.concat_eq_append, spell_ne (by simp), List.flatMap_append]
      simp
    have hup := upLoop_eq (t.flatMap (slash :: ·)) hc c.length (Nat.le_refl _)
    have hlen : (spell (t.concat c)).length = (t.flatMap (slash :: ·)).length + 1 + c.length := by
      rw [htext, List.length_append, List.length_cons]
      omega
    rw [upPath, hlen]
    simp only [htext, hup]
    rw [List.concat_eq_append, List.dropLast_concat]
    by_cases h : t = []
    · rw [h]
      rfl
    · have hpos : 0 < (t.flatMap (slash :: ·)).length := by
        obtain ⟨d, t, rfl⟩ := List.exists_cons_of_ne_nil h
        simp
      rw [if_pos (by omega), Nat.add_sub_cancel, List.take_left, spell_ne h]

/-- Adding a component adds a segment, or takes the place of the empty one. -/
theorem push_spell (t : List Str) (v : Str) :
    (if (spell t).length > 1 then spell t ++ [slash] else spell t) ++ v =
      spell ((if t = [[]] then [] else t) ++ [v]) := by
  split
  next h =>
    have hne : t ≠ [] := fun h0 => by simp [h0, spell] at h
    have hne' : t ≠ [[]] := fun h0 => by simp [h0, spell] at h
    rw [if_neg hne', spell_append hne, List.append_assoc]
    rfl
  next h =>
    rcases spell_short h with rfl | rfl
    · simp [spell]
    · simp [spell]

/-- One component edits the segments the way it edits components. -/
theorem absStep_spells {segs : List Str} {out v out' : Str} (h : Spells segs out)
    (hv : v ≠ []) (hs : slash ∉ v) (hstep : absStep out v = some out') :
    Spells ((compEdit v).apply segs) out' := by
  obtain ⟨⟨t, hout, hseg⟩, hclean⟩ := h
  have hclean' : ∀ c ∈ t, slash ∉ c := by
    rcases hseg with rfl | ⟨rfl, -⟩
    · exact hclean
    · exact fun c hc => hclean c (List.mem_cons_of_mem _ hc)
  rw [absStep] at hstep
  split at hstep
  next => exact absurd hstep (by simp)
  next =>
    rw [compEdit]
    split at hstep
    next hdot =>
      rw [Option.some.injEq] at hstep
      rw [if_pos hdot, ← hstep]
      exact ⟨⟨t, hout, hseg⟩, hclean⟩
    next hdot =>
      rw [if_neg hdot]
      split at hstep
      next hup =>
        rw [Option.some.injEq] at hstep
        rw [if_pos hup, ← hstep, hout, upPath_spell hclean']
        refine ⟨⟨t.dropLast, rfl, ?_⟩, fun c hc => hclean c ((List.dropLast_sublist _).subset hc)⟩
        rcases hseg with rfl | ⟨rfl, hne⟩
        · exact Or.inl rfl
        · by_cases ht : t = []
          · rw [ht]
            exact Or.inl rfl
          · refine Or.inr ⟨?_, fun c hc => hne c ((List.dropLast_sublist _).subset hc)⟩
            exact List.dropLast_cons_of_ne_nil ht
      next hup =>
        rw [if_neg hup]
        obtain ⟨rfl, -⟩ := pushComp_eq hstep
        rw [hout]
        refine ⟨⟨_, push_spell t v, ?_⟩, fun c hc => ?_⟩
        · rcases hseg with rfl | ⟨rfl, hne⟩
          · by_cases ht : segs = [[]]
            · rw [if_pos ht, ht]
              refine Or.inr ⟨rfl, fun c hc => ?_⟩
              rw [List.mem_singleton.mp hc]
              exact hv
            · rw [if_neg ht]
              exact Or.inl rfl
          · have ht : t ≠ [[]] := fun h0 => hne [] (by simp [h0]) rfl
            rw [if_neg ht]
            refine Or.inr ⟨rfl, fun c hc => ?_⟩
            rcases List.mem_append.mp hc with hc | hc
            · exact hne c hc
            · rw [List.mem_singleton.mp hc]
              exact hv
        · rcases List.mem_append.mp hc with hc | hc
          · exact hclean c hc
          · rw [List.mem_singleton.mp hc]
            exact hs

/-- A run of components edits the segments. -/
theorem foldlM_spells : ∀ {vs : List Str} {segs : List Str} {out out' : Str}, Spells segs out →
    (∀ v ∈ vs, v ≠ [] ∧ slash ∉ v) → vs.foldlM absStep out = some out' →
    Spells (edits (vs.map compEdit) segs) out'
  | [], _, _, _, h, _, hrun => by
    rw [List.foldlM_nil] at hrun
    exact (Option.some.inj hrun) ▸ h
  | v :: vs, segs, out, out', h, hvs, hrun => by
    rw [List.foldlM_cons] at hrun
    obtain ⟨hv, hs⟩ := hvs v (List.mem_cons_self ..)
    cases hstep : absStep out v with
    | none =>
      rw [hstep] at hrun
      exact absurd hrun (by simp)
    | some o =>
      rw [hstep] at hrun
      show Spells (edits (vs.map compEdit) ((compEdit v).apply segs)) out'
      exact foldlM_spells (absStep_spells h hv hs hstep)
        (fun w hw => hvs w (List.mem_cons_of_mem _ hw)) hrun

/-- What is spelled has the components of its segments. -/
theorem Spells.comps {segs : List Str} {out : Str} (h : Spells segs out) :
    comps out = segs.filter (· ≠ []) := by
  obtain ⟨⟨t, rfl, rfl | ⟨rfl, -⟩⟩, hclean⟩ := h
  · exact comps_spell hclean
  · rw [comps_spell fun c hc => hclean c (List.mem_cons_of_mem _ hc)]
    rfl

/-! ## The current directory -/

theorem not_mem_splitOn : ∀ (l : Str), ∀ c ∈ l.splitOn slash, slash ∉ c
  | [] => by simp
  | x :: l => by
    have ih := not_mem_splitOn l
    rw [List.splitOn_cons_eq_if_modifyHead]
    split
    · intro c hc
      rcases List.mem_cons.mp hc with rfl | hc
      · simp
      · exact ih c hc
    next hx =>
      obtain ⟨d, ds, hd⟩ := List.exists_cons_of_ne_nil (List.splitOn_ne_nil slash l)
      rw [hd] at ih ⊢
      intro c hc
      rcases List.mem_cons.mp hc with rfl | hc
      · intro hmem
        rcases List.mem_cons.mp hmem with rfl | hmem
        · simp at hx
        · exact ih d (List.mem_cons_self ..) hmem
      · exact ih c (List.mem_cons_of_mem _ hc)

theorem flat_eq_intercalate : ∀ {t : List Str}, t ≠ [] →
    t.flatMap (slash :: ·) = slash :: [slash].intercalate t
  | [], h => absurd rfl h
  | [c], _ => by simp
  | c :: d :: t, _ => by
    rw [List.flatMap_cons, flat_eq_intercalate (t := d :: t) (by simp)]
    simp

/-- The segments of the text a relative path is added to. -/
theorem cwdOut_spells {body : Str} (hlen : body.length < 255) :
    Spells (if body = [] then [] else body.splitOn slash ++ [[]]) (cwdOut (slash :: body)) := by
  have hne := List.splitOn_ne_nil slash body
  have htext : spell (body.splitOn slash) = slash :: body := by
    rw [spell_ne hne, flat_eq_intercalate hne, List.intercalate_splitOn]
  have hout : cwdOut (slash :: body) = if body = [] then [slash] else slash :: body ++ [slash] := by
    rw [cwdOut, List.take_of_length_le (by rw [List.length_cons]; omega)]
    by_cases hb : body = []
    · rw [if_pos hb, hb]
      rfl
    · have hpos := List.length_pos_iff.mpr hb
      rw [if_neg hb, if_pos (by rw [List.length_cons]; omega)]
  rw [hout]
  by_cases hb : body = []
  · rw [if_pos hb, if_pos hb]
    exact ⟨⟨[], rfl, Or.inl rfl⟩, by simp⟩
  · rw [if_neg hb, if_neg hb]
    refine ⟨⟨body.splitOn slash ++ [[]], ?_, Or.inl rfl⟩, fun c hc => ?_⟩
    · rw [spell_append hne, htext]
    · rcases List.mem_append.mp hc with hc | hc
      · exact not_mem_splitOn body c hc
      · rw [List.mem_singleton.mp hc]
        simp

/-- Without the empty ones they are the components of the current directory. -/
theorem cwdOut_comps {body : Str} (hlen : body.length < 255) :
    comps (cwdOut (slash :: body)) = comps (slash :: body) := by
  rw [cwdOut, List.take_of_length_le (by rw [List.length_cons]; omega)]
  split
  next =>
    rw [comps, pieces_append_sep, pieces_nil, List.append_nil]
    rfl
  next => rfl

/-! ## The outcome -/

/-- The components a path starts from. -/
def startOf (cwd path : Str) : List Str := if path.head? = some slash then [] else comps cwd

theorem push_ne_nil {path v : Str} (hv : Edit.push v ∈ (comps path).map compEdit) :
    decide (v ≠ []) = true := by
  obtain ⟨w, hw, hwv⟩ := List.mem_map.mp hv
  rw [compEdit] at hwv
  split at hwv
  next => exact absurd hwv (by simp)
  next =>
    split at hwv
    next => exact absurd hwv (by simp)
    next => simpa [← Edit.push.inj hwv] using (mem_pieces hw).1

/-- A text whose segments are edited instead of its components. -/
theorem spells_resolves {segs : List Str} {path out₀ out : Str} (h : Spells segs out₀)
    (hrun : (comps path).foldlM absStep out₀ = some out) :
    comps out = resolve (comps out₀) path ↔
      (∀ c ∈ segs.rtake (climbs path), c ≠ []) ∨ ∀ c ∈ segs.rdrop (climbs path), c = [] := by
  have hvs : ∀ v ∈ comps path, v ≠ [] ∧ slash ∉ v := fun v hv => mem_pieces hv
  have hout := (foldlM_spells h hvs hrun).comps
  rw [hout, h.comps, resolve, edits_filter_iff (fun a ha => push_ne_nil ha)]
  simp [climbs]

/-- **When a path means what it says.** A result has the components the path leads
to exactly when the path is absolute, never climbs above the current directory, or
climbs so far that only empty segments of it are left; the first level it climbs
only takes away the slash put behind the current directory. -/
theorem abspath_resolves {body path out : Str} (hlen : body.length < 255)
    (h : abspath (slash :: body) path = some out) :
    comps out = resolve (startOf (slash :: body) path) path ↔
      path.head? = some slash ∨ climbs path = 0 ∨
        ∀ c ∈ (body.splitOn slash).rdrop (climbs path - 1), c = [] := by
  by_cases habs : path.head? = some slash
  · refine iff_of_true ?_ (Or.inl habs)
    have hroot : Spells [] [slash] := ⟨⟨[], rfl, Or.inl rfl⟩, by simp⟩
    have hrun : (comps path).foldlM absStep [slash] = some out := by
      cases path with
      | nil => simp at habs
      | cons c rest =>
        obtain rfl : c = slash := by simpa using habs
        rw [← abspath_abs]
        exact h
    rw [startOf, if_pos habs]
    exact (spells_resolves hroot hrun).mpr (Or.inl (by simp))
  · rw [abspath_rel habs] at h
    rw [startOf, if_neg habs, ← cwdOut_comps hlen, spells_resolves (cwdOut_spells hlen) h]
    by_cases hb : body = []
    · rw [if_pos hb, hb]
      refine iff_of_true (Or.inl (by simp)) (Or.inr (Or.inr fun c hc => ?_))
      have hmem := List.mem_of_mem_take hc
      simpa using hmem
    · rw [if_neg hb]
      cases hk : climbs path with
      | zero => exact iff_of_true (Or.inl (by simp)) (Or.inr (Or.inl rfl))
      | succ k =>
        -- the segment behind the added slash is the first to go
        rw [List.rtake_concat_succ, List.rdrop_concat_succ, Nat.add_sub_cancel]
        simp [habs]

/-- `../../B` from `/A` climbs far enough. -/
theorem abspath_resolves_twice_up :
    comps [slash, 66] = resolve (startOf [slash, 65] [dot, dot, slash, dot, dot, slash, 66])
      [dot, dot, slash, dot, dot, slash, 66] :=
  (@abspath_resolves [65] _ _ (by decide) (by decide)).mpr (by decide)

/-- **One level up is no level up**: `..` from `/A` is `/A`. -/
theorem dotdot_stays : ¬ ∀ body path out : Str, body.length < 255 →
    (∀ v ∈ comps path, v.length ≤ 12) → out.length ≤ 255 →
    abspath (slash :: body) path = some out →
    comps out = resolve (startOf (slash :: body) path) path := by
  intro h
  have h := h [65] [dot, dot] [slash, 65] (by decide) (by decide) (by decide) (by decide)
  revert h
  decide

/-! ## Paths of slashes -/

/-- A single slash, or a slash with something else behind it: what `cwd_path` is. -/
def Plain (p : Str) : Prop := p = [slash] ∨ ∃ c q, p = slash :: c :: q ∧ c ≠ slash

/-- Without a component it is the single slash. -/
theorem Plain.root {p : Str} (h : Plain p) (hc : comps p = []) : p = [slash] := by
  rcases h with h | ⟨c, q, rfl, hne⟩
  · exact h
  · exact absurd (eq_sep_of_pieces_nil hc c (by simp)) hne

theorem Plain.append {p : Str} (h : Plain p) (hlen : 1 < p.length) (q : Str) : Plain (p ++ q) := by
  rcases h with rfl | ⟨c, r, rfl, hne⟩
  · exact absurd hlen (by simp)
  · exact Or.inr ⟨c, r ++ q, rfl, hne⟩

/-- All but the first byte may be dropped. -/
theorem Plain.take {p : Str} (h : Plain p) {n : Nat} (hn : 0 < n) : Plain (p.take n) := by
  obtain ⟨m, rfl⟩ : ∃ m, n = m + 1 := ⟨n - 1, by omega⟩
  rcases h with rfl | ⟨c, q, rfl, hne⟩
  · rw [List.take_succ_cons, List.take_nil]
    exact Or.inl rfl
  · cases m with
    | zero => exact Or.inl rfl
    | succ m => exact Or.inr ⟨c, q.take m, rfl, hne⟩

theorem upLoop_pos (out : Str) : ∀ {n : Nat}, 0 < n → 0 < upLoop out n
  | n + 1, _ => by
    rw [upLoop]
    split
    next h => exact upLoop_pos out (by omega)
    next => omega

theorem Plain.up {p : Str} (h : Plain p) : Plain (upPath p) := by
  have hlen : 0 < p.length := by
    rcases h with rfl | ⟨c, q, rfl, -⟩
    · decide
    · exact Nat.succ_pos _
  have hpos := upLoop_pos p hlen
  refine h.take ?_
  split <;> omega

/-- One component of `abspath`. -/
theorem Plain.step {out v out' : Str} (h : Plain out) (hv : v ≠ []) (hs : slash ∉ v)
    (hstep : absStep out v = some out') : Plain out' := by
  unfold absStep at hstep
  split at hstep
  next => exact absurd hstep (by simp)
  next =>
    split at hstep
    next => exact Option.some.inj hstep ▸ h
    next =>
      split at hstep
      next => exact Option.some.inj hstep ▸ h.up
      next =>
        rw [(pushComp_eq hstep).1]
        by_cases hlen : out.length > 1
        · rw [if_pos hlen, List.append_assoc]
          exact h.append hlen _
        · -- the component comes right behind the first slash
          rw [if_neg hlen]
          rcases h with rfl | ⟨c, q, rfl, -⟩
          · cases v with
            | nil => exact absurd rfl hv
            | cons c v => exact Or.inr ⟨c, v, rfl, fun hc => hs (by simp [hc])⟩
          · simp at hlen

theorem Plain.run : ∀ {vs : List Str} {out out' : Str}, Plain out →
    (∀ v ∈ vs, v ≠ [] ∧ slash ∉ v) → vs.foldlM absStep out = some out' → Plain out'
  | [], _, _, h, _, hrun => Option.some.inj hrun ▸ h
  | v :: vs, out, out', h, hvs, hrun => by
    rw [List.foldlM_cons] at hrun
    obtain ⟨o, hstep, hrest⟩ := Option.bind_eq_some_iff.mp hrun
    have hv := hvs v (by simp)
    exact Plain.run (h.step hv.1 hv.2 hstep) (fun x hx => hvs x (List.mem_cons_of_mem _ hx)) hrest

/-- **`abspath` never makes a path of several slashes only.** -/
theorem abspath_plain {cwd path abs : Str} (hcwd : Plain cwd) (h : abspath cwd path = some abs) :
    Plain abs := by
  have hcomps : ∀ v ∈ comps path, v ≠ [] ∧ slash ∉ v := fun v hv => mem_pieces hv
  by_cases hhead : path.head? = some slash
  · obtain ⟨rest, rfl⟩ : ∃ rest, path = slash :: rest := by
      cases path with
      | nil => exact absurd hhead (by simp)
      | cons c rest => exact ⟨rest, by rw [List.head?_cons, Option.some.injEq] at hhead; rw [hhead]⟩
    rw [abspath_abs] at h
    exact Plain.run (Or.inl rfl) hcomps h
  · rw [abspath_rel hhead] at h
    refine Plain.run ?_ hcomps h
    have htake : Plain (cwd.take 255) := hcwd.take (by omega)
    unfold cwdOut
    split
    next hlen => exact htake.append hlen _
    next => exact htake

end InaneOS.Fat
