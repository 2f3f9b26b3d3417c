import InaneOS.Fat.Resolve
import InaneOS.Fat.Calls
import InaneOS.Fat.Guarantees

/-!
# The 256 bytes of `out`

`abspath` checks the room before each byte of a component, but not before the
slash behind the current directory, the slash in front of a component and the
closing NUL. `abspathAt` is `abspath` with the bytes it stores in `out`, each with
its index.

A text of at most 255 bytes stays one, whatever component comes (`runAt_short`):
the slash goes to index 255 at most, and a component behind it is refused. Only a
current directory of 255 bytes gives a longer one to start with, and then all
depends on the first component that is not `.` (`bufOk_iff`). Such a directory
is reached: `.` makes `cwd_path` one byte longer each time (`dots_overflow`).
-/

namespace InaneOS.Fat

open InaneOS.Lib

/-! ## `abspath` with its writes -/

/-- `pushComp`, with what it stores. -/
def pushCompAt (out : Str) : Str → List (Nat × UInt8) × Option Str
  | [] => ([], some out)
  | c :: cs =>
    if out.length + 1 ≥ 256 then ([], none)
    else
      let r := pushCompAt (out ++ [c]) cs
      ((out.length, c) :: r.1, r.2)

/-- `if (n > 1) out[n++] = '/'`, what it stores. -/
def slashAt (out : Str) : List (Nat × UInt8) :=
  if out.length > 1 then [(out.length, slash)] else []

/-- The component loop, with what it stores; `out[n] = 0` is the last of it. -/
def abspathLoopAt : Nat → Str → Str → List (Nat × UInt8) × Option Str
  | 0, _, out => ([(out.length, 0)], some out)
  | k + 1, path, out =>
    let p := skipSlash path
    if p = [] then ([(out.length, 0)], some out)
    else
      let m := compLen 12 p
      if m = 0 ∨ goesOn (p.drop m) then ([], none)
      else if nameSame (p.take m) [dot] then abspathLoopAt k (p.drop m) out
      else if nameSame (p.take m) [dot, dot] then abspathLoopAt k (p.drop m) (upPath out)
      else
        match pushCompAt (if out.length > 1 then out ++ [slash] else out) (p.take m) with
        | (w, none) => (slashAt out ++ w, none)
        | (w, some out') =>
          let r := abspathLoopAt k (p.drop m) out'
          (slashAt out ++ w ++ r.1, r.2)

/-- `abspath(path, out)` with what it stores in `out`, in order. -/
def abspathAt (cwd path : Str) : List (Nat × UInt8) × Option Str :=
  let rel (k : Nat) : List (Nat × UInt8) × Option Str :=
    let out := cwd.take 255
    let r := abspathLoopAt k path (if out.length > 1 then out ++ [slash] else out)
    ((List.range out.length).zip out ++ slashAt out ++ r.1, r.2)
  match path with
  | [] => rel 0
  | c :: rest =>
    if c = slash then
      let r := abspathLoopAt rest.length rest [slash]
      ((0, slash) :: r.1, r.2)
    else rel path.length

/-! ## Component by component -/

/-- `absStep`, with what it stores. -/
def stepAt (out v : Str) : List (Nat × UInt8) × Option Str :=
  if 12 < v.length then ([], none)
  else if v = [dot] then ([], some out)
  else if v = [dot, dot] then ([], some (upPath out))
  else
    let r := pushCompAt (if out.length > 1 then out ++ [slash] else out) v
    (slashAt out ++ r.1, r.2)

def runAt : Str → List Str → List (Nat × UInt8) × Option Str
  | out, [] => ([(out.length, 0)], some out)
  | out, v :: vs =>
    match stepAt out v with
    | (w, none) => (w, none)
    | (w, some o) => (w ++ (runAt o vs).1, (runAt o vs).2)

theorem abspathLoopAt_eq : ∀ (k : Nat) (path out : Str), path.length ≤ k →
    abspathLoopAt k path out = runAt out (comps path)
  | 0, path, out, hk => by
    rw [List.length_eq_zero_iff.mp (Nat.le_zero.mp hk)]
    rfl
  | k + 1, path, out, hk => by
    rcases skipSlash_cases path with ⟨hnil, hcs⟩ | ⟨v, r, h⟩
    · rw [abspathLoopAt, if_pos hnil, hcs]
      rfl
    · rw [abspathLoopAt, h.skip, if_neg (by simp [h.ne]), h.comps_eq, runAt, stepAt]
      rcases Nat.lt_or_ge 12 v.length with hlong | hshort
      · rw [if_pos (Or.inr (h.long hlong)), if_pos hlong]
      · obtain ⟨hm, hgo⟩ := h.short hshort
        have hrk : r.length ≤ k := h.rest_le hk
        simp only [hm, List.take_left, List.drop_left, nameSame_eq, decide_eq_true_eq]
        rw [if_neg (by simp [h.ne, hgo]), if_neg (Nat.not_lt.mpr hshort)]
        by_cases hdot : v = [dot]
        · rw [if_pos hdot, if_pos hdot]
          exact abspathLoopAt_eq k r out hrk
        · rw [if_neg hdot, if_neg hdot]
          by_cases hup : v = [dot, dot]
          · rw [if_pos hup, if_pos hup]
            exact abspathLoopAt_eq k r (upPath out) hrk
          · rw [if_neg hup, if_neg hup]
            rcases hp : pushCompAt (if out.length > 1 then out ++ [slash] else out) v with ⟨w, o⟩
            cases o with
            | none => rfl
            | some o =>
              dsimp only
              rw [abspathLoopAt_eq k r o hrk]

theorem pushCompAt_snd : ∀ (out v : Str), (pushCompAt out v).2 = pushComp out v
  | _, [] => rfl
  | out, c :: v => by
    rw [pushCompAt, pushComp]
    split
    next => rfl
    next => exact pushCompAt_snd (out ++ [c]) v

theorem stepAt_snd (out v : Str) : (stepAt out v).2 = absStep out v := by
  rw [stepAt, absStep]
  split
  next => rfl
  next =>
    split
    next => rfl
    next =>
      split
      next => rfl
      next => exact pushCompAt_snd _ v

theorem runAt_snd : ∀ (vs : List Str) (out : Str), (runAt out vs).2 = vs.foldlM absStep out
  | [], _ => rfl
  | v :: vs, out => by
    rw [runAt, List.foldlM_cons, ← stepAt_snd]
    rcases stepAt out v with ⟨w, o⟩
    cases o with
    | none => rfl
    | some o => exact runAt_snd vs o

theorem abspathAt_abs (cwd rest : Str) : abspathAt cwd (slash :: rest) =
    ((0, slash) :: (runAt [slash] (comps rest)).1, (runAt [slash] (comps rest)).2) := by
  rw [abspathAt]
  dsimp only
  rw [if_pos rfl, abspathLoopAt_eq _ _ _ (Nat.le_refl _)]

theorem abspathAt_rel {cwd path : Str} (h : path.head? ≠ some slash) : abspathAt cwd path =
    ((List.range (cwd.take 255).length).zip (cwd.take 255) ++ slashAt (cwd.take 255) ++
      (runAt (cwdOut cwd) (comps path)).1, (runAt (cwdOut cwd) (comps path)).2) := by
  cases path with
  | nil => rfl
  | cons c rest =>
    have hc : c ≠ slash := fun hc => h (by rw [hc]; rfl)
    rw [abspathAt]
    dsimp only
    rw [if_neg hc, abspathLoopAt_eq _ _ _ (Nat.le_refl _)]
    rfl

/-- The writes are those of `abspath`. -/
theorem abspathAt_snd (cwd path : Str) : (abspathAt cwd path).2 = abspath cwd path := by
  by_cases h : path.head? = some slash
  · obtain ⟨rest, rfl⟩ : ∃ rest, path = slash :: rest := by
      cases path with
      | nil => simp at h
      | cons c rest => exact ⟨rest, by simpa using h⟩
    rw [abspathAt_abs, abspath_abs, runAt_snd]
    exact congrArg (fun cs => List.foldlM absStep [slash] cs) (pieces_sep rest).symm
  · rw [abspathAt_rel h, abspath_rel h, runAt_snd]

/-! ## Inside the buffer -/

/-- What goes right: nothing is stored behind `out`, and a result ends with a NUL
inside it. -/
structure BufOk (r : List (Nat × UInt8) × Option Str) : Prop where
  inside : ∀ w ∈ r.1, w.1 < 256
  ended : ∀ out, r.2 = some out → r.1.getLast? = some (out.length, 0)

theorem BufOk.length_lt {r : List (Nat × UInt8) × Option Str} (h : BufOk r) {out : Str}
    (ho : r.2 = some out) : out.length < 256 :=
  h.inside _ (List.mem_of_getLast? (h.ended out ho))

/-- A result is the text before the NUL stored last. -/
theorem runAt_ended : ∀ {vs : List Str} {out o : Str}, (runAt out vs).2 = some o →
    (runAt out vs).1.getLast? = some (o.length, 0)
  | [], out, o, h => by
    rw [← Option.some.inj h]
    rfl
  | v :: vs, out, o, h => by
    rw [runAt] at h ⊢
    rcases hst : stepAt out v with ⟨w, o'⟩
    rw [hst] at h
    cases o' with
    | none => exact absurd h (by simp)
    | some o' =>
      rw [List.getLast?_append, runAt_ended h]
      rfl

/-- More bytes inside the buffer in front. -/
theorem BufOk.front {w : List (Nat × UInt8)} {r : List (Nat × UInt8) × Option Str} (h : BufOk r)
    (hw : ∀ x ∈ w, x.1 < 256) : BufOk (w ++ r.1, r.2) := by
  refine ⟨fun x hx => ?_, fun out ho => ?_⟩
  · rcases List.mem_append.mp hx with hx | hx
    · exact hw x hx
    · exact h.inside x hx
  · rw [List.getLast?_append, h.ended out ho]
    rfl

/-- A component is only copied as far as the closing NUL has room behind it. -/
theorem pushCompAt_inside : ∀ (v out : Str), (∀ w ∈ (pushCompAt out v).1, w.1 < 255) ∧
    ∀ o, (pushCompAt out v).2 = some o → v ≠ [] → o.length ≤ 255
  | [], _ => ⟨by simp [pushCompAt], fun _ _ h => absurd rfl h⟩
  | c :: v, out => by
    obtain ⟨hin, hlen⟩ := pushCompAt_inside v (out ++ [c])
    rw [pushCompAt]
    split
    next => exact ⟨by simp, fun o ho => absurd ho (by simp)⟩
    next hlt =>
      refine ⟨fun w hw => ?_, fun o ho _ => ?_⟩
      · rcases List.mem_cons.mp hw with rfl | hw
        · show out.length < 255
          omega
        · exact hin w hw
      · by_cases hv : v = []
        · rw [hv] at ho
          rw [← Option.some.inj ho, List.length_append, List.length_singleton]
          omega
        · exact hlen o ho hv

/-- One component of a text of at most 255 bytes. -/
theorem stepAt_short {out v : Str} (h : out.length ≤ 255) (hv : v ≠ []) :
    (∀ w ∈ (stepAt out v).1, w.1 < 256) ∧ ∀ o, (stepAt out v).2 = some o → o.length ≤ 255 := by
  have hup := upPath_length out
  rw [stepAt]
  split
  next => exact ⟨by simp, fun o ho => absurd ho (by simp)⟩
  next =>
    split
    next =>
      refine ⟨by simp, fun o ho => ?_⟩
      rw [← Option.some.inj ho]
      exact h
    next =>
      split
      next =>
        refine ⟨by simp, fun o ho => ?_⟩
        rw [← Option.some.inj ho]
        omega
      next =>
        obtain ⟨hin, hlen⟩ := pushCompAt_inside v (if out.length > 1 then out ++ [slash] else out)
        refine ⟨fun w hw => ?_, fun o ho => hlen o ho hv⟩
        rcases List.mem_append.mp hw with hw | hw
        · rw [slashAt] at hw
          split at hw
          next =>
            rw [List.mem_singleton.mp hw]
            show out.length < 256
            omega
          next => simp at hw
        · have hw := hin w hw
          omega

/-- **A text of at most 255 bytes stays in the buffer**, whatever comes. -/
theorem runAt_short : ∀ {vs : List Str} {out : Str}, out.length ≤ 255 → (∀ v ∈ vs, v ≠ []) →
    BufOk (runAt out vs)
  | [], out, h, _ => by
    refine ⟨fun w hw => ?_, fun o ho => runAt_ended ho⟩
    rw [List.mem_singleton.mp hw]
    show out.length < 256
    omega
  | v :: vs, out, h, hvs => by
    obtain ⟨hin, hlen⟩ := stepAt_short h (hvs v (List.mem_cons_self ..))
    rw [runAt]
    rcases hst : stepAt out v with ⟨w, o⟩
    rw [hst] at hin hlen
    cases o with
    | none => exact ⟨hin, fun o ho => absurd ho (by simp)⟩
    | some o =>
      exact (runAt_short (hlen o rfl) fun u hu => hvs u (List.mem_cons_of_mem _ hu)).front hin

/-! ## A full buffer -/

/-- The first component that is not `.` saves a full buffer: it is `..`, which
makes room, or it is refused. -/
def Saves (vs : List Str) : Prop :=
  ∃ v, vs.find? (· ≠ [dot]) = some v ∧ (v = [dot, dot] ∨ 12 < v.length)

/-- From a text of 256 bytes with a slash at the end. -/
theorem runAt_full {cwd : Str} (hc : cwd.length = 255) : ∀ {vs : List Str}, (∀ v ∈ vs, v ≠ []) →
    (BufOk (runAt (cwd ++ [slash]) vs) ↔ Saves vs)
  | [], _ => by
    refine iff_of_false (fun h => ?_) (fun ⟨v, hv, _⟩ => by simp at hv)
    have hin := h.inside ((cwd ++ [slash]).length, 0) (List.mem_singleton.mpr rfl)
    rw [List.length_append, hc] at hin
    exact absurd hin (by decide)
  | v :: vs, hvs => by
    have hvs' : ∀ u ∈ vs, u ≠ [] := fun u hu => hvs u (List.mem_cons_of_mem _ hu)
    have hlen : (cwd ++ [slash]).length = 256 := by rw [List.length_append, hc]; rfl
    by_cases hdot : v = [dot]
    · have hrun : runAt (cwd ++ [slash]) (v :: vs) = runAt (cwd ++ [slash]) vs := by
        rw [runAt, stepAt, hdot, if_neg (by decide), if_pos rfl]
        rfl
      have hsave : Saves (v :: vs) ↔ Saves vs := by
        rw [Saves, List.find?_cons_of_neg (by simp [hdot])]
        rfl
      rw [hrun, hsave]
      exact runAt_full hc hvs'
    · have hsave : Saves (v :: vs) ↔ v = [dot, dot] ∨ 12 < v.length := by
        rw [Saves, List.find?_cons_of_pos (by simp [hdot])]
        simp
      rw [hsave, runAt, stepAt]
      by_cases hlong : 12 < v.length
      · rw [if_pos hlong]
        exact iff_of_true ⟨by simp, fun o ho => absurd ho (by simp)⟩ (Or.inr hlong)
      · rw [if_neg hlong, if_neg hdot]
        by_cases hup : v = [dot, dot]
        · rw [if_pos hup]
          refine iff_of_true ?_ (Or.inl hup)
          have hpath : upPath (cwd ++ [slash]) = cwd := by
            have hl := @upLoop_eq cwd [] (by simp) 0 (Nat.le_refl _)
            rw [upPath, List.length_append]
            simp only [List.length_singleton, Nat.add_zero] at hl ⊢
            rw [hl, if_pos (by omega), Nat.add_sub_cancel, List.take_left]
          rw [hpath]
          exact (runAt_short (by omega) hvs').front (by simp)
        · rw [if_neg hup, if_pos (by omega), slashAt, if_pos (by omega)]
          refine iff_of_false (fun h => ?_) (by simp [hup, hlong])
          have hbad : ((cwd ++ [slash]).length, slash) ∈ [((cwd ++ [slash]).length, slash)] :=
            List.mem_singleton.mpr rfl
          have hin : (cwd ++ [slash]).length < 256 := by
            dsimp only at h
            split at h
            next hw =>
              rw [Prod.mk.injEq] at hw
              exact h.inside _ (hw.1 ▸ List.mem_append_left _ hbad)
            next hw =>
              rw [Prod.mk.injEq] at hw
              exact h.inside _ (List.mem_append_left _ (hw.1 ▸ List.mem_append_left _ hbad))
          omega

/-- What `abspath` needs of the current directory and the path. -/
def HasRoom (cwd path : Str) : Prop :=
  path.head? = some slash ∨ cwd.length < 255 ∨ Saves (comps path)

/-- **When `abspath` stays inside `out`.** -/
theorem bufOk_iff {cwd : Str} (hc : cwd.length < 256) (path : Str) :
    BufOk (abspathAt cwd path) ↔ HasRoom cwd path := by
  have hvs : ∀ v ∈ comps path, v ≠ [] := fun v hv => (mem_pieces hv).1
  by_cases h : path.head? = some slash
  · refine iff_of_true ?_ (Or.inl h)
    obtain ⟨rest, rfl⟩ : ∃ rest, path = slash :: rest := by
      cases path with
      | nil => simp at h
      | cons c rest => exact ⟨rest, by simpa using h⟩
    rw [abspathAt_abs]
    have hrest : ∀ v ∈ comps rest, v ≠ [] := fun v hv => (mem_pieces hv).1
    have hroot := runAt_short (show [slash].length ≤ 255 by decide) hrest
    exact hroot.front (w := [(0, slash)]) (by simp)
  · have htake : cwd.take 255 = cwd := List.take_of_length_le (by omega)
    rw [abspathAt_rel h, htake]
    have hcopy : ∀ w ∈ (List.range cwd.length).zip cwd ++ slashAt cwd, w.1 < 256 := by
      intro w hw
      rcases List.mem_append.mp hw with hw | hw
      · have := List.mem_range.mp (List.of_mem_zip hw).1
        omega
      · rw [slashAt] at hw
        split at hw
        next =>
          rw [List.mem_singleton.mp hw]
          show cwd.length < 256
          omega
        next => simp at hw
    have hiff : BufOk ((List.range cwd.length).zip cwd ++ slashAt cwd ++
        (runAt (cwdOut cwd) (comps path)).1, (runAt (cwdOut cwd) (comps path)).2) ↔
        BufOk (runAt (cwdOut cwd) (comps path)) := by
      refine ⟨fun hb => ⟨fun w hw => hb.inside w (List.mem_append_right _ hw), fun o ho => ?_⟩,
        fun hb => hb.front hcopy⟩
      exact runAt_ended ho
    rw [hiff]
    by_cases hfull : cwd.length = 255
    · rw [cwdOut, htake, if_pos (by omega), runAt_full hfull hvs]
      simp [HasRoom, h, hfull]
    · refine iff_of_true (runAt_short ?_ hvs) (Or.inr (Or.inl (by omega)))
      rw [cwdOut, htake]
      split
      next =>
        rw [List.length_append, List.length_singleton]
        omega
      next => omega

/-! ## Runs of calls -/

/-- In every state of the run `cwd_path` ends inside its buffer, and so does what
each call makes `abspath` store. -/
structure RunOk (f : Vol) (cs : List FatCall) : Prop where
  cwd : ∀ pre, pre <+: cs → ∀ g, Reached f pre g → g.cwdPath.length < 256
  calls : ∀ pre c, pre ++ [c] <+: cs → ∀ g, Reached f pre g → BufOk (abspathAt g.cwdPath c.arg)

/-- Each call of the run finds room. -/
def RunFits (f : Vol) (cs : List FatCall) : Prop :=
  ∀ pre c, pre ++ [c] <+: cs → ∀ g, Reached f pre g → HasRoom g.cwdPath c.arg

/-- A call that finds room leaves a `cwd_path` that ends inside its buffer. -/
theorem FatCall.run_cwd {fuel : Nat} {f f' : Vol} {c : FatCall} (hf : f.cwdPath.length < 256)
    (hroom : HasRoom f.cwdPath c.arg) (h : c.run fuel f = some f') : f'.cwdPath.length < 256 := by
  rcases FatCall.run_cases h with hm | ⟨path, abs, hit, f₁, -, habs, -, -, rfl⟩
  · rw [hm.cwdPath]
    exact hf
  · have hok := (bufOk_iff hf c.arg).mpr hroom
    exact hok.length_lt ((abspathAt_snd f.cwdPath c.arg).trans habs)

/-- **The path buffers over a run of calls**: they hold exactly as long as every call
finds room. -/
theorem run_bufOk {part : Nat} {f₀ f : Vol} (h : fatMount part f₀ = (true, f))
    (cs : List FatCall) : RunOk f cs ↔ RunFits f cs := by
  constructor
  · intro hok pre c hpre g hg
    have hlt := hok.cwd pre ((List.prefix_append pre [c]).trans hpre) g hg
    exact (bufOk_iff hlt c.arg).mp (hok.calls pre c hpre g hg)
  · intro hfit
    have hcwd : ∀ pre g, Reached f pre g → pre <+: cs → g.cwdPath.length < 256 := by
      intro pre g hg
      induction hg with
      | refl =>
        intro _
        rw [(fatMount_cwd h).1]
        decide
      | @step pre f₁ f' c fuel hr hrun ih =>
        intro hpre
        have hlt := ih ((List.prefix_append pre [c]).trans hpre)
        exact FatCall.run_cwd hlt (hfit pre c hpre f₁ hr) hrun
    refine ⟨fun pre hpre g hg => hcwd pre g hg hpre, fun pre c hpre g hg => ?_⟩
    have hlt := hcwd pre g hg ((List.prefix_append pre [c]).trans hpre)
    exact (bufOk_iff hlt c.arg).mpr (hfit pre c hpre g hg)

/-! ## A run that overflows -/

/-- The sample volume after mounting it. -/
def sampleMounted : Vol := (fatMount 1 sampleVol).2

theorem sampleMounted_eq : fatMount 1 sampleVol = (true, sampleMounted) :=
  Prod.ext (by decide +kernel) rfl

/-- The run that only goes to `/A`. -/
theorem run_bufOk_chdir : RunOk sampleMounted [.chdir [65]] := by
  refine (run_bufOk sampleMounted_eq [.chdir [65]]).mpr fun pre c hpre g hg => ?_
  have hlen : (pre ++ [c]).length ≤ [FatCall.chdir [65]].length := hpre.length_le
  obtain rfl : pre = [] := List.length_eq_zero_iff.mp (by simpa using hlen)
  rw [hg.of_nil, (fatMount_cwd sampleMounted_eq).1]
  exact Or.inr (Or.inl (by decide))

/-- `fat_chdir` to a directory below the root. -/
theorem chdir_to {f : Vol} (ht : Tree f.toGeo f.disk) {path abs : Str} {r : Option Slot}
    (hp : path ≠ []) (habs : abspath f.cwdPath path = some abs)
    (hw : WalksTo f.toGeo f.disk none abs r) (hd : isDir f.disk r = true) (hcs : comps abs ≠ []) :
    ∃ s, FatCall.run (f.fatSz * 128) f (.chdir path) = some { f with
      sec := s, cwdClus := first f.toGeo f.disk r, cwdPath := abs } := by
  obtain ⟨s, res, hrun, hyes, -⟩ := walk_spec ht (Nat.le_refl _) abs false 0
  rcases hyes r hw with rfl | ⟨h, -⟩
  · refine ⟨s, ?_⟩
    have hdir : (hitOf f.toGeo f.disk 0 r).isdir = true := by rw [hitOf_isdir, hd]
    rw [FatCall.run, fatChdir, if_neg hp, habs]
    dsimp only
    rw [hrun]
    dsimp only
    rw [hdir, hitOf_clus]
    rfl
  · exact absurd h hcs

theorem abspath_dot {cwd : Str} (hpos : 1 < cwd.length) (hlen : cwd.length ≤ 255) :
    abspath cwd [dot] = some (cwd ++ [slash]) := by
  have hc : comps [dot] = [[dot]] := by decide
  have hstep : absStep (cwdOut cwd) [dot] = some (cwdOut cwd) := by
    rw [absStep, if_neg (by decide), if_pos rfl]
  rw [abspath_rel (by decide), hc, List.foldlM_cons, hstep, cwdOut, List.take_of_length_le hlen,
    if_pos hpos]
  rfl

theorem comps_slashes : ∀ k, comps (List.replicate k slash) = []
  | 0 => rfl
  | k + 1 => by
    rw [List.replicate_succ, comps, pieces_sep]
    exact comps_slashes k

/-- `/A`, with slashes behind it. -/
def longA (k : Nat) : Str := [slash, 65] ++ List.replicate k slash

theorem longA_succ (k : Nat) : longA (k + 1) = longA k ++ [slash] := by
  rw [longA, longA, List.replicate_succ', List.append_assoc]

theorem longA_length (k : Nat) : (longA k).length = k + 2 := by
  rw [longA, List.length_append, List.length_replicate]
  exact Nat.add_comm 2 k

theorem longA_comps (k : Nat) : comps (longA k) = [[65]] := by
  have hrun : List.replicate k slash = [] ∨ ∃ r, List.replicate k slash = slash :: r := by
    cases k with
    | zero => exact Or.inl rfl
    | succ k => exact Or.inr ⟨_, List.replicate_succ⟩
  rw [longA, List.cons_append, comps, pieces_sep, pieces_run (by decide) (by decide) hrun]
  exact congrArg ([65] :: ·) (comps_slashes k)

/-- It leads to the directory `A` of the sample volume. -/
theorem longA_walksTo (k : Nat) :
    WalksTo sampleVol.toGeo sampleVol.disk none (longA k) (some (4, 0)) := by
  have hroot : Named sampleVol.toGeo sampleVol.disk none ([65].map upper) (4, 0) :=
    ⟨⟨rfl, [2], clusChain_of_chainOk (by decide +kernel), by decide +kernel, [65],
      by decide +kernel⟩, by decide +kernel⟩
  have hdir : isDir sampleVol.disk (some (4, 0)) = true := by decide +kernel
  refine ⟨?_, ?_, fun h => absurd (hdir.symm.trans h) (by decide)⟩
  · rw [longA_comps]
    decide
  · rw [longA_comps]
    exact ⟨(4, 0), hroot, rfl⟩

/-- `fat_chdir("A")` and then `fat_chdir(".")` again and again. -/
def dots (k : Nat) : List FatCall := .chdir [65] :: List.replicate k (.chdir [dot])

theorem dots_succ (k : Nat) : dots (k + 1) = dots k ++ [.chdir [dot]] := by
  rw [dots, dots, List.replicate_succ', List.cons_append]

/-- What the sample volume looks like in directory `longA k`. -/
structure InLongA (k : Nat) (g : Vol) : Prop where
  path : g.cwdPath = longA k
  geo : g.toGeo = sampleVol.toGeo
  disk : g.disk = sampleVol.disk

/-- A `fat_chdir` that comes to `longA k`. -/
theorem chdir_longA {g : Vol} (hgeo : g.toGeo = sampleVol.toGeo) (hdisk : g.disk = sampleVol.disk)
    {path : Str} {k : Nat} (hp : path ≠ []) (habs : abspath g.cwdPath path = some (longA k)) :
    ∃ fuel g', FatCall.run fuel g (.chdir path) = some g' ∧ InLongA k g' := by
  have ht : Tree g.toGeo g.disk := by
    rw [hgeo, hdisk]
    exact sampleVol_certified.tree
  have hw : WalksTo g.toGeo g.disk none (longA k) (some (4, 0)) := by
    rw [hgeo, hdisk]
    exact longA_walksTo k
  have hd : isDir g.disk (some (4, 0)) = true := by
    rw [hdisk]
    decide +kernel
  have hne : comps (longA k) ≠ [] := by
    rw [longA_comps]
    exact List.cons_ne_nil _ _
  obtain ⟨s, hrun⟩ := chdir_to ht hp habs hw hd hne
  exact ⟨_, _, hrun, rfl, hgeo, hdisk⟩

/-- Each of the first 253 makes the path one byte longer. -/
theorem dots_reached : ∀ k, k ≤ 253 → ∃ g, Reached sampleMounted (dots k) g ∧ InLongA k g
  | 0, _ => by
    have habs : abspath sampleMounted.cwdPath [65] = some (longA 0) := by
      rw [(fatMount_cwd sampleMounted_eq).1]
      decide
    obtain ⟨fuel, g, hrun, hg⟩ := chdir_longA (g := sampleMounted) rfl rfl (by simp) habs
    exact ⟨g, Reached.step Reached.refl hrun, hg⟩
  | k + 1, hk => by
    obtain ⟨g, hg, hpath, hgeo, hdisk⟩ := dots_reached k (by omega)
    have hlen := longA_length k
    have habs : abspath g.cwdPath [dot] = some (longA (k + 1)) := by
      rw [hpath, abspath_dot (by omega) (by omega), longA_succ]
    obtain ⟨fuel, g', hrun, hg'⟩ := chdir_longA hgeo hdisk (by simp) habs
    rw [dots_succ]
    exact ⟨g', Reached.step hg hrun, hg'⟩

/-- **Harmless calls overflow the buffer**: 254 times `.` after `A`. -/
theorem dots_overflow : ¬ ∀ part f₀ f, fatMount part f₀ = (true, f) → ∀ cs : List FatCall,
    (∀ c ∈ cs, c.arg.length ≤ 127) → RunOk f cs := by
  intro h
  have hshort : ∀ c ∈ dots 254, c.arg.length ≤ 127 := by
    intro c hc
    rcases List.mem_cons.mp hc with rfl | hc
    · decide
    · rw [List.eq_of_mem_replicate hc]
      decide
  have hok := h 1 sampleVol sampleMounted sampleMounted_eq (dots 254) hshort
  obtain ⟨g, hg, hpath, -, -⟩ := dots_reached 253 (Nat.le_refl _)
  have hlen := longA_length 253
  have hlast : dots 253 ++ [.chdir [dot]] <+: dots 254 := dots_succ 253 ▸ List.prefix_refl _
  have hbuf := hok.calls (dots 253) (.chdir [dot]) hlast g hg
  rw [hpath, FatCall.arg, if_neg (by simp)] at hbuf
  rcases (bufOk_iff (by omega) [dot]).mp hbuf with hroot | hshort | hsave
  · exact absurd hroot (by decide)
  · omega
  · obtain ⟨v, hv, -⟩ := hsave
    have hc : comps [dot] = [[dot]] := by decide
    rw [hc] at hv
    simp at hv

end InaneOS.Fat
