import InaneOS.Fat.Write
import InaneOS.Lib.Pieces

/-!
# What the path loops do

`abspath` and `walk` cut a path the same way: skip slashes, take at most twelve
bytes up to the next slash, fail when the component goes on. The components are
`pieces slash`. `Round` is what one round of either loop sees; the loop of `abspath`
is then a fold of `absStep` over the components (`abspathLoop_eq`), and a round of
`walk` is one search for the component (`Round.walk`).

`fat_write` splits the absolute path once more, at its last slash
(`lastSlash_none`, `lastSlash_append`). The two facts it depends on are that an
absolute path is short enough for the parent buffer and that the last component
the caller typed ends the absolute path; both are in `abspath_spec`.
-/

namespace InaneOS.Fat

open InaneOS.Lib

/-- The components of a path. -/
def comps (p : Str) : List Str := pieces slash p

/-! ## One round -/

theorem skipSlash_comps (p : Str) : comps (skipSlash p) = comps p := pieces_dropWhile p

theorem skipSlash_length (p : Str) : (skipSlash p).length ≤ p.length :=
  (List.dropWhile_suffix _).length_le

/-- A path goes on with the component `v`, and `r` is what stands behind it. -/
structure Round (path v r : Str) : Prop where
  skip : skipSlash path = v ++ r
  ne : v ≠ []
  clean : slash ∉ v
  ends : r = [] ∨ ∃ r', r = slash :: r'
  comps_eq : comps path = v :: comps r

/-- What is left after the slashes is nothing, or a component and a rest. -/
theorem skipSlash_cases (p : Str) :
    (skipSlash p = [] ∧ comps p = []) ∨ ∃ v r, Round p v r := by
  rw [← skipSlash_comps p]
  cases h : skipSlash p with
  | nil => exact Or.inl ⟨rfl, rfl⟩
  | cons c t =>
    have hc : c ≠ slash := by
      have hnot := List.head_dropWhile_not (p := (· == slash)) (l := p)
      have hne : p.dropWhile (· == slash) ≠ [] := by
        rw [show p.dropWhile (· == slash) = c :: t from h]
        simp
      have hhead := hnot hne
      simp only [show p.dropWhile (· == slash) = c :: t from h, List.head_cons] at hhead
      simpa using hhead
    obtain ⟨v, r, hvr, hne, hv, hr, hp⟩ := head_spec (t := t) hc
    exact Or.inr ⟨v, r, ⟨h.trans hvr, hne, hv, hr, (skipSlash_comps p).symm.trans
      ((congrArg comps h).trans hp)⟩⟩

theorem compLen_run : ∀ (n : Nat) {v r : Str}, slash ∉ v → (r = [] ∨ ∃ r', r = slash :: r') →
    compLen n (v ++ r) = min n v.length
  | 0, v, r, _, _ => by rw [compLen, Nat.zero_min]
  | n + 1, [], r, _, hr => by
    rcases hr with rfl | ⟨r', rfl⟩
    · rfl
    · simp [compLen]
  | n + 1, c :: v, r, hv, hr => by
    obtain ⟨hc, hv⟩ := not_or.mp (mt List.mem_cons.mpr hv)
    rw [List.cons_append, compLen, if_neg (Ne.symm hc), compLen_run n hv hr, List.length_cons]
    omega

/-- A component of at most twelve bytes is taken whole. -/
theorem round_ok {v r : Str} (hv : slash ∉ v) (hr : r = [] ∨ ∃ r', r = slash :: r')
    (h : v.length ≤ 12) : compLen 12 (v ++ r) = v.length ∧ goesOn r = false := by
  rw [compLen_run 12 hv hr, Nat.min_eq_right h]
  refine ⟨rfl, ?_⟩
  rcases hr with rfl | ⟨r', rfl⟩
  · rfl
  · simp [goesOn]

/-- A longer one is noticed. -/
theorem round_long {v r : Str} (hv : slash ∉ v) (hr : r = [] ∨ ∃ r', r = slash :: r')
    (h : 12 < v.length) : goesOn ((v ++ r).drop (compLen 12 (v ++ r))) = true := by
  rw [compLen_run 12 hv hr, Nat.min_eq_left (Nat.le_of_lt h),
    List.drop_append_of_le_length (Nat.le_of_lt h)]
  have hne : v.drop 12 ≠ [] := by simpa using h
  cases hd : v.drop 12 with
  | nil => exact absurd hd hne
  | cons c t =>
    have hc : c ∈ v := List.mem_of_mem_drop (hd ▸ List.mem_cons_self ..)
    have hcs : c ≠ slash := fun hcs => hv (hcs ▸ hc)
    simpa [goesOn] using hcs

namespace Round

variable {path v r : Str}

/-- A round takes at least one byte of the path. -/
theorem rest_le (h : Round path v r) {k : Nat} (hk : path.length ≤ k + 1) : r.length ≤ k := by
  have hpos : 0 < v.length := List.length_pos_iff.mpr h.ne
  have hlen := skipSlash_length path
  rw [h.skip, List.length_append] at hlen
  omega

theorem short (h : Round path v r) (hs : v.length ≤ 12) :
    compLen 12 (v ++ r) = v.length ∧ goesOn r = false :=
  round_ok h.clean h.ends hs

theorem long (h : Round path v r) (hl : 12 < v.length) :
    goesOn ((v ++ r).drop (compLen 12 (v ++ r))) = true :=
  round_long h.clean h.ends hl

theorem path_ne (h : Round path v r) : path ≠ [] := by
  intro he
  have hskip : ([] : Str) = v ++ r := by rw [← h.skip, he]; rfl
  exact h.ne (List.append_eq_nil_iff.mp hskip.symm).1

end Round

/-! ## `abspath` -/

theorem pushComp_eq : ∀ {v out o : Str}, pushComp out v = some o →
    o = out ++ v ∧ (v ≠ [] → o.length ≤ 256)
  | [], out, o, h => by
    rw [pushComp, Option.some.injEq] at h
    simp [h]
  | c :: v, out, o, h => by
    rw [pushComp] at h
    split at h
    next => exact absurd h (by simp)
    next hlt =>
      obtain ⟨rfl, hlen⟩ := pushComp_eq h
      refine ⟨by simp, fun _ => ?_⟩
      by_cases hv : v = []
      · simp only [hv, List.append_nil, List.length_append, List.length_singleton]
        omega
      · exact hlen hv

theorem upPath_length (out : Str) : (upPath out).length ≤ out.length :=
  (List.take_prefix _ _).length_le

/-- What one component does to the path built so far. -/
def absStep (out v : Str) : Option Str :=
  if 12 < v.length then none
  else if v = [dot] then some out
  else if v = [dot, dot] then some (upPath out)
  else pushComp (if out.length > 1 then out ++ [slash] else out) v

theorem nameSame_eq (a b : Str) : nameSame a b = decide (a = b) := by
  by_cases h : a = b
  · rw [decide_eq_true h, nameSame_iff.mpr h]
  · rw [decide_eq_false h, Bool.eq_false_iff]
    exact mt nameSame_iff.mp h

/-- The loop of `abspath` runs over the components. -/
theorem abspathLoop_eq : ∀ (k : Nat) (path out : Str), path.length ≤ k →
    abspathLoop k path out = (comps path).foldlM absStep out
  | 0, path, out, hk => by
    rw [List.length_eq_zero_iff.mp (Nat.le_zero.mp hk)]
    rfl
  | k + 1, path, out, hk => by
    rcases skipSlash_cases path with ⟨hnil, hcs⟩ | ⟨v, r, h⟩
    · rw [abspathLoop, if_pos hnil, hcs]
      rfl
    · rw [abspathLoop, h.skip, if_neg (by simp [h.ne]), h.comps_eq, List.foldlM_cons, absStep]
      rcases Nat.lt_or_ge 12 v.length with hlong | hshort
      · rw [if_pos (Or.inr (h.long hlong)), if_pos hlong]
        rfl
      · obtain ⟨hm, hgo⟩ := h.short hshort
        have hrk : r.length ≤ k := h.rest_le hk
        simp only [hm, List.take_left, List.drop_left, nameSame_eq, decide_eq_true_eq]
        rw [if_neg (by simp [h.ne, hgo]), if_neg (Nat.not_lt.mpr hshort)]
        by_cases hdot : v = [dot]
        · rw [if_pos hdot, if_pos hdot]
          exact abspathLoop_eq k r out hrk
        · rw [if_neg hdot, if_neg hdot]
          by_cases hup : v = [dot, dot]
          · rw [if_pos hup, if_pos hup]
            exact abspathLoop_eq k r (upPath out) hrk
          · rw [if_neg hup, if_neg hup]
            cases hp : pushComp (if out.length > 1 then out ++ [slash] else out) v with
            | none => rfl
            | some o => exact abspathLoop_eq k r o hrk

/-- One component: the text stays within the buffer, and ends the way the component does,
unless that ends in a dot. -/
theorem absStep_spec {out v o : Str} (h : absStep out v = some o) (ho : out.length ≤ 256)
    (hne : v ≠ []) : o.length ≤ 256 ∧ (v.getLast? ≠ some dot → o.getLast? = v.getLast?) := by
  unfold absStep at h
  split at h
  next => exact absurd h (by simp)
  next =>
    split at h
    next hdot =>
      obtain rfl := Option.some.inj h
      exact ⟨ho, fun hno => absurd (by rw [hdot]; rfl) hno⟩
    next =>
      split at h
      next hup =>
        obtain rfl := Option.some.inj h
        exact ⟨Nat.le_trans (upPath_length out) ho, fun hno => absurd (by rw [hup]; rfl) hno⟩
      next =>
        obtain ⟨rfl, hlen⟩ := pushComp_eq h
        exact ⟨hlen hne, fun _ => List.getLast?_append_of_ne_nil _ hne⟩

/-- What `abspath` builds: never more than 256 bytes, and ending the way the last
component does, unless that ends in a dot. -/
theorem absRun_spec : ∀ {cs : List Str} {out abs : Str}, cs.foldlM absStep out = some abs →
    (∀ c ∈ cs, c ≠ []) → out.length ≤ 256 → abs.length ≤ 256 ∧ (cs = [] → abs = out) ∧
      ∀ q, cs.getLast? = some q → q.getLast? ≠ some dot → abs.getLast? = q.getLast?
  | [], out, abs, h, _, ho => by
    obtain rfl : out = abs := Option.some.inj h
    exact ⟨ho, fun _ => rfl, by simp⟩
  | v :: cs, out, abs, h, hne, ho => by
    rw [List.foldlM_cons] at h
    obtain ⟨o, hstep, hrun⟩ := Option.bind_eq_some_iff.mp h
    obtain ⟨hlen, hlast⟩ := absStep_spec hstep ho (hne v List.mem_cons_self)
    obtain ⟨h1, h2, h3⟩ := absRun_spec hrun (fun c hc => hne c (List.mem_cons_of_mem _ hc)) hlen
    refine ⟨h1, by simp, fun q hq hqd => ?_⟩
    cases cs with
    | nil =>
      obtain rfl : v = q := Option.some.inj hq
      rw [h2 rfl]
      exact hlast hqd
    | cons c cs => exact h3 q (by rw [← hq, List.getLast?_cons_cons]) hqd

/-- The text a relative path is added to. -/
def cwdOut (cwd : Str) : Str :=
  if (cwd.take 255).length > 1 then cwd.take 255 ++ [slash] else cwd.take 255

theorem abspath_abs (cwd rest : Str) :
    abspath cwd (slash :: rest) = (comps (slash :: rest)).foldlM absStep [slash] := by
  rw [abspath, if_pos rfl, abspathLoop_eq _ _ _ (Nat.le_refl _)]
  exact congrArg (fun cs => List.foldlM absStep [slash] cs) (pieces_sep rest).symm

theorem abspath_rel {cwd path : Str} (h : path.head? ≠ some slash) :
    abspath cwd path = (comps path).foldlM absStep (cwdOut cwd) := by
  cases path with
  | nil => rfl
  | cons c rest =>
    have hc : c ≠ slash := fun hc => h (by rw [hc]; rfl)
    rw [abspath, if_neg hc]
    exact abspathLoop_eq _ _ _ (Nat.le_refl _)

theorem cwdOut_length (cwd : Str) : (cwdOut cwd).length ≤ 256 := by
  have hlen : (cwd.take 255).length ≤ 255 := List.length_take_le ..
  unfold cwdOut
  split
  · rw [List.length_append, List.length_singleton]
    omega
  · omega

/-- The start of a relative path is at most one byte or ends in a slash. -/
theorem cwdOut_last (cwd : Str) : (cwdOut cwd).length ≤ 1 ∨ (cwdOut cwd).getLast? = some slash := by
  unfold cwdOut
  split
  · exact Or.inr List.getLast?_concat
  · exact Or.inl (by omega)

theorem abspath_spec {cwd path abs : Str} (h : abspath cwd path = some abs) : abs.length ≤ 256 ∧
    (comps path = [] → abs.length ≤ 1 ∨ abs.getLast? = some slash) ∧
    ∀ q, (comps path).getLast? = some q → q.getLast? ≠ some dot → abs.getLast? = q.getLast? := by
  have hne : ∀ c ∈ comps path, c ≠ [] := fun c hc => (mem_pieces hc).1
  by_cases hs : path.head? = some slash
  · obtain ⟨rest, rfl⟩ := List.head?_eq_some_iff.mp hs
    rw [abspath_abs] at h
    obtain ⟨h1, h2, h3⟩ := absRun_spec h hne (by simp)
    exact ⟨h1, fun hc => Or.inl (by rw [h2 hc]; rfl), h3⟩
  · rw [abspath_rel hs] at h
    obtain ⟨h1, h2, h3⟩ := absRun_spec h hne (cwdOut_length cwd)
    refine ⟨h1, fun hc => ?_, h3⟩
    rw [h2 hc]
    exact cwdOut_last cwd

/-- An absolute path does not depend on the current directory. -/
theorem abspath_slash (cwd cwd' rest : Str) :
    abspath cwd (slash :: rest) = abspath cwd' (slash :: rest) := rfl

/-! ## `walk` -/

theorem walkLoop_end {path : Str} (h : skipSlash path = []) (fuel k : Nat) (hit : Hit) (f : Vol) :
    walkLoop fuel (k + 1) path hit f = some (some hit, f) := by
  rw [walkLoop, if_pos h]

/-- A component of more than twelve bytes is not looked for. -/
theorem Round.walk_long {path v r : Str} (h : Round path v r) (hl : 12 < v.length) (fuel k : Nat)
    (hit : Hit) (f : Vol) : walkLoop fuel (k + 1) path hit f = some (none, f) := by
  rw [walkLoop, h.skip, if_neg (by simp [h.ne]), if_pos (Or.inr (h.long hl))]

/-- One round of `walk`, for a component of at most twelve bytes. -/
theorem Round.walk {path v r : Str} (h : Round path v r) (hs : v.length ≤ 12) (fuel k : Nat)
    (hit : Hit) (f : Vol) : walkLoop fuel (k + 1) path hit f =
      match scanDir none (walkBody v r hit.size) fuel hit.clus 0 () f with
      | none => none
      | some (.ok _, f) => some (none, f)
      | some (.error none, f) => some (none, f)
      | some (.error (some hit), f) =>
        if !hit.isdir ∧ r ≠ [] then some (none, f) else walkLoop fuel k r hit f := by
  obtain ⟨hm, hgo⟩ := h.short hs
  have hne : v ≠ [] := h.ne
  rw [walkLoop, h.skip, if_neg (by simp [hne])]
  simp only [hm, List.take_left, List.drop_left]
  refine (if_neg (by simp [hne, hgo])).trans ?_
  rcases scanDir none (walkBody v r hit.size) fuel hit.clus 0 () f with _ | ⟨(_ | h₁) | _, f₁⟩
  · rfl
  · rfl
  · rfl
  · rfl

/-! ## The last slash -/

theorem lastSlash_none : ∀ {v : Str} {i : Nat} {o : Option Nat}, slash ∉ v → lastSlash v i o = o
  | [], _, _, _ => rfl
  | c :: v, i, o, h => by
    obtain ⟨hc, hv⟩ := not_or.mp (mt List.mem_cons.mpr h)
    rw [lastSlash, if_neg (Ne.symm hc)]
    exact lastSlash_none hv

theorem lastSlash_append : ∀ {a v : Str} {i : Nat} {o : Option Nat}, slash ∉ v →
    lastSlash (a ++ slash :: v) i o = some (i + a.length)
  | [], v, i, o, h => by
    rw [List.nil_append, lastSlash, if_pos rfl, lastSlash_none h]
    rfl
  | c :: a, v, i, o, h => by
    rw [List.cons_append, lastSlash, lastSlash_append h, List.length_cons]
    congr 1
    omega

theorem exists_last : ∀ (p : Str), slash ∉ p ∨ ∃ a v, p = a ++ slash :: v ∧ slash ∉ v
  | [] => Or.inl (by simp)
  | c :: p => by
    rcases exists_last p with h | ⟨a, v, rfl, hv⟩
    · by_cases hc : c = slash
      · exact Or.inr ⟨[], p, by rw [hc]; rfl, h⟩
      · exact Or.inl (by simp [h, Ne.symm hc])
    · exact Or.inr ⟨c :: a, v, rfl, hv⟩

/-- The last slash of a path is one. -/
theorem last_unique {a b v w : Str} (h : a ++ slash :: v = b ++ slash :: w) (hv : slash ∉ v)
    (hw : slash ∉ w) :
    a = b ∧ v = w := by
  have hlast := @lastSlash_append a v 0 none hv
  rw [h, lastSlash_append hw, Option.some.injEq] at hlast
  obtain ⟨hab, htail⟩ := List.append_inj h (by omega)
  exact ⟨hab, (List.cons.inj htail).2⟩

end InaneOS.Fat
