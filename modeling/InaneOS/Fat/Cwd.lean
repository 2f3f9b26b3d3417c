import InaneOS.Fat.Listing

/-!
# The current directory, kept twice

`cwd_path` and `cwd_clus` are two records of one thing: `fat_list("")` starts at the
cluster, every other call walks a path. They agree over any run of calls (`CwdOk`,
`run_cwdOk`): `fat_chdir` stores what its own walk found, and `fat_write` changes no
directory a path goes through, because for a reader the disk afterwards is the old one
but for a file (`OldOrNew`).

`fat_list(cwd_path)` and `fat_chdir` of what `fat_getcwd` returned first send the text
through `abspath` again. That only drops its empty segments (`abspath_again`), because
`abspath` has never left a `.` or a `..` in it (`abspath_words`).
-/

namespace InaneOS.Fat

open InaneOS.Lib

/-! ## A result of `abspath` sent through it again -/

/-- Components that are names, not `.` or `..`. -/
def Words (vs : List Str) : Prop := ∀ v ∈ vs, v ≠ [dot] ∧ v ≠ [dot, dot]

/-- A component that is pushed is a word. -/
theorem compEdit_push {v w : Str} (h : compEdit v = Edit.push w) : w ≠ [dot] ∧ w ≠ [dot, dot] := by
  unfold compEdit at h
  split at h
  next => exact absurd h (by simp)
  next hdot =>
    split at h
    next => exact absurd h (by simp)
    next hdots => exact Edit.push.inj h ▸ ⟨hdot, hdots⟩

theorem edits_words {vs segs : List Str} (h : Words segs) :
    Words (edits (vs.map compEdit) segs) := by
  intro c hc
  rcases mem_edits hc with hc | hc
  · exact h c hc
  · obtain ⟨v, -, hv⟩ := List.mem_map.mp hc
    exact compEdit_push hv

/-- `abspath` only leaves names. -/
theorem abspath_words {body path out : Str} (hlen : body.length < 255)
    (hw : Words (comps (slash :: body))) (h : abspath (slash :: body) path = some out) :
    Words (comps out) := by
  have hspell : ∀ {segs : List Str} {out₀ : Str}, Spells segs out₀ → Words segs →
      (comps path).foldlM absStep out₀ = some out → Words (comps out) := by
    intro segs out₀ hsp hsegs hrun
    rw [(foldlM_spells hsp (fun v hv => mem_pieces hv) hrun).comps]
    exact fun c hc => edits_words hsegs c (List.mem_of_mem_filter hc)
  by_cases hhead : path.head? = some slash
  · obtain ⟨rest, rfl⟩ : ∃ rest, path = slash :: rest := by
      cases path with
      | nil => exact absurd hhead (by simp)
      | cons c rest =>
        rw [List.head?_cons, Option.some.injEq] at hhead
        exact ⟨rest, by rw [hhead]⟩
    rw [abspath_abs] at h
    exact @hspell _ (spell []) ⟨⟨[], rfl, Or.inl rfl⟩, by simp⟩ (by simp [Words]) h
  · rw [abspath_rel hhead] at h
    have hsp := cwdOut_spells hlen
    refine hspell hsp (fun c hc => ?_) h
    -- a segment is empty or a component of the current directory
    by_cases hnil : c = []
    · subst hnil
      exact ⟨by simp, by simp⟩
    · refine hw c ?_
      rw [← cwdOut_comps hlen, hsp.comps]
      exact List.mem_filter.mpr ⟨hc, by simpa using hnil⟩

/-- Every component takes its length and one slash. -/
theorem comps_length : ∀ (n : Nat) (p : Str), p.length ≤ n →
    ((comps p).flatMap (slash :: ·)).length ≤ p.length + 1
  | 0, p, hn => by
    rw [List.length_eq_zero_iff.mp (Nat.le_zero.mp hn)]
    exact Nat.zero_le _
  | n + 1, p, hn => by
    have hskip := skipSlash_length p
    rcases skipSlash_cases p with ⟨-, hc⟩ | ⟨v, r, hp, hne, -, hr, hc⟩
    · rw [hc]
      exact Nat.zero_le _
    · have hv : 0 < v.length := List.length_pos_iff.mpr hne
      rw [hp, List.length_append] at hskip
      rw [hc, List.flatMap_cons, List.length_append, List.length_cons]
      rcases hr with rfl | ⟨r', rfl⟩
      · have hnil : comps ([] : Str) = [] := rfl
        rw [hnil, List.flatMap_nil, List.length_nil]
        omega
      · have hsep : comps (slash :: r') = comps r' := pieces_sep r'
        rw [List.length_cons] at hskip
        have ih := comps_length n r' (by omega)
        rw [hsep]
        omega

theorem pushComp_some : ∀ (v out : Str), out.length + v.length ≤ 255 →
    pushComp out v = some (out ++ v)
  | [], out, _ => by rw [pushComp, List.append_nil]
  | c :: v, out, h => by
    rw [List.length_cons] at h
    have hlen : (out ++ [c]).length = out.length + 1 := by rw [List.length_append]; rfl
    rw [pushComp, if_neg (by omega), pushComp_some v (out ++ [c]) (by omega), List.append_assoc]
    rfl

/-- Names that fit are spelled out one after the other. -/
theorem run_words : ∀ (vs t : List Str), Words vs → (∀ v ∈ vs, v ≠ [] ∧ v.length ≤ 12) →
    (∀ c ∈ t, c ≠ []) → (spell (t ++ vs)).length ≤ 255 →
    vs.foldlM absStep (spell t) = some (spell (t ++ vs))
  | [], t, _, _, _, _ => by rw [List.append_nil]; rfl
  | v :: vs, t, hw, hvs, ht, hlen => by
    obtain ⟨hne, hshort⟩ := hvs v (by simp)
    obtain ⟨hdot, hdots⟩ := hw v (by simp)
    have happ : t ++ v :: vs = (t ++ [v]) ++ vs := by simp
    have ht' : t ≠ [[]] := fun h => ht [] (by simp [h]) rfl
    have hpush := push_spell t v
    rw [if_neg ht'] at hpush
    have hle : (spell (t ++ [v])).length ≤ (spell ((t ++ [v]) ++ vs)).length := by
      rw [spell_ne (by simp), spell_ne (by simp), @List.flatMap_append _ _ (t ++ [v]),
        List.length_append]
      exact Nat.le_add_right _ _
    have hstep : absStep (spell t) v = some (spell (t ++ [v])) := by
      rw [absStep, if_neg (by omega), if_neg hdot, if_neg hdots, pushComp_some, hpush]
      rw [← List.length_append, hpush]
      rw [happ] at hlen
      omega
    rw [List.foldlM_cons, hstep]
    have hrec := run_words vs (t ++ [v]) (fun x hx => hw x (List.mem_cons_of_mem _ hx))
      (fun x hx => hvs x (List.mem_cons_of_mem _ hx)) (fun c hc => ?_) (happ ▸ hlen)
    · rw [happ]
      exact hrec
    · rcases List.mem_append.mp hc with hc | hc
      · exact ht c hc
      · rw [List.mem_singleton.mp hc]
        exact hne

/-- **A text of names goes through `abspath` with the same components.** -/
theorem abspath_again {body : Str} (cwd : Str) (hlen : body.length < 255)
    (hw : Words (comps (slash :: body))) (hshort : ∀ v ∈ comps (slash :: body), v.length ≤ 12) :
    ∃ abs, abspath cwd (slash :: body) = some abs ∧ comps abs = comps (slash :: body) := by
  have hcs : ∀ v ∈ comps (slash :: body), v ≠ [] ∧ slash ∉ v := fun v hv => mem_pieces hv
  have hfit : (spell ([] ++ comps (slash :: body))).length ≤ 255 := by
    have hsum := comps_length _ body (Nat.le_refl _)
    have hsep : comps (slash :: body) = comps body := pieces_sep body
    rw [List.nil_append, hsep, spell]
    split
    · exact (by decide : [slash].length ≤ 255)
    · omega
  refine ⟨spell (comps (slash :: body)), ?_, ?_⟩
  · rw [abspath_abs]
    exact run_words _ [] hw (fun v hv => ⟨(hcs v hv).1, hshort v hv⟩) (by simp) hfit
  · rw [comps_spell fun v hv => (hcs v hv).2]
    exact List.filter_eq_self.mpr fun v hv => by simpa using (hcs v hv).1

/-! ## The invariant -/

/-- The path leads to a directory, and the cluster is its first one. -/
structure CwdOk (f : Vol) : Prop where
  wf : WellFormed f.toGeo f.disk
  plain : Plain f.cwdPath
  words : Words (comps f.cwdPath)
  dir : ∃ r, WalksTo f.toGeo f.disk none f.cwdPath r ∧ isDir f.disk r = true ∧
    f.cwdClus = first f.toGeo f.disk r

theorem CwdOk.mounted {part : Nat} {f₀ f : Vol} (hm : fatMount part f₀ = (true, f))
    (hwf : WellFormed f.toGeo f.disk) : CwdOk f := by
  obtain ⟨hpath, hclus⟩ := fatMount_cwd hm
  have hnil : comps [slash] = [] := rfl
  refine ⟨hwf, Or.inl hpath, ?_, none, ?_, rfl, hclus⟩
  · rw [hpath, hnil]
    simp [Words]
  · rw [hpath]
    exact ⟨by simp [hnil], rfl, fun h => absurd h (by simp [isDir])⟩

theorem CwdOk.looked {f f' : Vol} (h : CwdOk f) (hl : Looked f f') :
    CwdOk f' ∧ f'.toGeo = f.toGeo := by
  obtain ⟨s, rfl⟩ := hl
  exact ⟨⟨h.wf, h.plain, h.words, h.dir⟩, rfl⟩

/-- A directory that a path leads to is where it was after a `fat_write`. -/
theorem OldOrNew.dir {f : Vol} {path buf : Str} {d : Disk} (h : OldOrNew f path buf d) {p : Str}
    {r : Option Slot} (hw : WalksTo f.toGeo f.disk none p r) (hd : isDir f.disk r = true) :
    WalksTo f.toGeo d none p r ∧ isDir d r = true ∧ first f.toGeo d r = first f.toGeo f.disk r := by
  obtain ⟨X, hv, hX⟩ : ∃ X, View f.toGeo f.disk d X ∧ NoDirs f.toGeo f.disk X := by
    rcases h with h | ⟨r₀, name83, sl₀, -, h⟩
    · exact ⟨_, h.view, noDirs_empty _ _⟩
    · exact ⟨_, h.view, h.noDirs⟩
  have hr := hw.steps.ref Ref.root
  have hx : ∀ a, r = some a → ¬ X a := by
    intro a ha hxa
    subst ha
    exact absurd (hd.symm.trans (hX a hxa hr)) (by simp)
  have hd' : isDir d r = true := (hv.isDir' hr hx).trans hd
  exact ⟨⟨hw.short, hv.steps hX Ref.root (by simp) hx hw.steps,
    fun h => absurd (hd'.symm.trans h) (by simp)⟩, hd', hv.first hr hx⟩

section Run

variable {f : Vol} (h : CwdOk f) {fuel : Nat} (hfuel : f.fatSz * 128 ≤ fuel)

include h hfuel

theorem CwdOk.write (path buf : Str) : ∃ ok f', fatWrite fuel path buf f = some (ok, f') ∧
    CwdOk f' ∧ f'.toGeo = f.toGeo := by
  obtain ⟨ok, f', ws, hrun, hran, -, hcuts⟩ := fatWrite_cuts h.wf.tree hfuel path buf
  obtain ⟨ok', f'', hrun', hgeo, hwf⟩ := fatWrite_wellFormed h.wf hfuel path buf
  obtain ⟨rfl, rfl⟩ := Prod.mk.inj (Option.some.inj (hrun.symm.trans hrun'))
  have hend : OldOrNew f path buf f'.disk := by
    rw [hran.disk, ← List.take_length (l := ws)]
    exact hcuts ws.length
  obtain ⟨r, hw, hd, hclus⟩ := h.dir
  obtain ⟨hw', hd', hfirst⟩ := hend.dir hw hd
  have hpath := hran.cwdPath
  have hclus' : f'.cwdClus = f.cwdClus := by
    obtain ⟨s, n, rfl⟩ := hran
    rfl
  refine ⟨ok, f', hrun, ⟨hwf, hpath ▸ h.plain, hpath ▸ h.words, r, ?_, hd', ?_⟩, hgeo⟩
  · rw [hgeo, hpath]
    exact hw'
  · rw [hclus', hgeo, hfirst]
    exact hclus

/-- `fat_chdir` stores a path and the cluster it leads to. -/
theorem CwdOk.chdir (hlen : f.cwdPath.length ≤ 254) (path : Str) :
    ∃ ok f', fatChdir fuel path f = some (ok, f') ∧ CwdOk f' ∧ f'.toGeo = f.toGeo := by
  unfold fatChdir
  generalize (if path = [] then [slash] else path) = arg
  cases habs : abspath f.cwdPath arg with
  | none => exact ⟨false, f, rfl, h.looked (Looked.refl f)⟩
  | some abs =>
    dsimp only
    have hplain := abspath_plain h.plain habs
    have hwords : Words (comps abs) := by
      obtain ⟨body, hbody⟩ : ∃ body, f.cwdPath = slash :: body := by
        rcases h.plain with h | ⟨c, q, h, -⟩
        · exact ⟨[], h⟩
        · exact ⟨c :: q, h⟩
      have hw := h.words
      rw [hbody] at habs hw hlen
      rw [List.length_cons] at hlen
      exact abspath_words (by omega) hw habs
    by_cases hex : ∃ r, WalksTo f.toGeo f.disk none abs r
    · obtain ⟨r, hw⟩ := hex
      obtain ⟨s, hrun⟩ := walk_dir_spec h.wf.tree hfuel hplain hw false 0
      rw [hrun]
      dsimp only
      rw [hitOf_isdir, hitOf_clus]
      cases hd : isDir f.disk r with
      | false => exact ⟨false, _, rfl, h.looked ⟨s, rfl⟩⟩
      | true => exact ⟨true, _, rfl, ⟨h.wf, hplain, hwords, r, hw, hd, rfl⟩, rfl⟩
    · obtain ⟨s, res, hrun, -, hno⟩ := walk_spec h.wf.tree hfuel abs false 0
      rw [hrun, hno fun r hw => hex ⟨r, hw⟩]
      exact ⟨false, _, rfl, h.looked ⟨s, rfl⟩⟩

omit h in
/-- `fat_read` returns. -/
theorem fatRead_returns (ht : Tree f.toGeo f.disk) (path : Str) (cap : Nat) :
    ∃ r, fatRead fuel path cap f = some r := by
  by_cases hex : ∃ abs sl, abspath f.cwdPath path = some abs ∧
      WalksTo f.toGeo f.disk none abs (some sl) ∧ isDir f.disk (some sl) = false
  · obtain ⟨abs, sl, habs, hw, hd⟩ := hex
    obtain ⟨cs, hcs⟩ := ht.fileChain (hw.steps.ref Ref.root) hd
    obtain ⟨s, hrun⟩ := fatRead_file ht hfuel cap habs hw hd hcs
    exact ⟨_, hrun⟩
  · obtain ⟨s, hrun⟩ := fatRead_none ht hfuel cap fun abs r habs hw => by
      cases r with
      | none => rfl
      | some sl =>
        by_contra hd
        exact hex ⟨abs, sl, habs, hw, Bool.eq_false_iff.mpr hd⟩
    exact ⟨_, hrun⟩

/-- `fat_list` returns. -/
theorem CwdOk.list (path : Str) (cap : Nat) : ∃ r, fatList fuel path cap f = some r := by
  have ht := h.wf.tree
  by_cases hdir : ∃ r, ListsDir f path r
  · obtain ⟨r, hdir⟩ := hdir
    obtain ⟨hd, hr⟩ := hdir.ref
    obtain ⟨cs, hcs⟩ := ht.dirChain hr hd
    obtain ⟨s, hrun⟩ := fatList_spec ht h.plain hfuel hdir hcs cap
    exact ⟨_, hrun⟩
  · have hne : path ≠ [] := by
      intro he
      subst he
      obtain ⟨r, hw, hd, hclus⟩ := h.dir
      exact hdir ⟨r, hd, Or.inl ⟨rfl, hw.steps.ref Ref.root, hclus⟩⟩
    rw [fatList_eq]
    cases habs : abspath f.cwdPath path with
    | none => exact ⟨_, rfl⟩
    | some abs =>
      dsimp only
      rw [if_neg hne]
      by_cases hex : ∃ r, WalksTo f.toGeo f.disk none abs r
      · obtain ⟨r, hw⟩ := hex
        obtain ⟨s, hrun⟩ := walk_dir_spec ht hfuel (abspath_plain h.plain habs) hw false 0
        have hd : isDir f.disk r = false := by
          by_contra hd
          exact hdir ⟨r, Bool.eq_true_of_not_eq_false hd, Or.inr ⟨hne, abs, habs, hw⟩⟩
        rw [hrun]
        dsimp only
        rw [hitOf_isdir, hd]
        exact ⟨_, rfl⟩
      · obtain ⟨s, res, hrun, -, hno⟩ := walk_spec ht hfuel abs false 0
        rw [hrun, hno fun r hw => hex ⟨r, hw⟩]
        exact ⟨_, rfl⟩

/-- **One call** returns and keeps the invariant. -/
theorem CwdOk.run (hlen : f.cwdPath.length ≤ 254) (c : FatCall) :
    ∃ f', c.run fuel f = some f' ∧ CwdOk f' ∧ f'.toGeo = f.toGeo := by
  cases c with
  | chdir path =>
    obtain ⟨ok, f', hrun, hok⟩ := h.chdir hfuel hlen path
    exact ⟨f', by rw [FatCall.run, hrun]; rfl, hok⟩
  | list path cap =>
    obtain ⟨⟨out, f'⟩, hrun⟩ := h.list hfuel path cap
    exact ⟨f', by rw [FatCall.run, hrun]; rfl, h.looked (fatList_looked hrun)⟩
  | read path cap =>
    obtain ⟨⟨out, f'⟩, hrun⟩ := fatRead_returns hfuel h.wf.tree path cap
    exact ⟨f', by rw [FatCall.run, hrun]; rfl, h.looked (fatRead_looked hrun)⟩
  | write path buf =>
    obtain ⟨ok, f', hrun, hok⟩ := h.write hfuel path buf
    exact ⟨f', by rw [FatCall.run, hrun]; rfl, hok⟩

end Run

/-- **Any run of calls** returns and keeps the invariant, as long as `cwd_path` stays
short. -/
theorem run_cwdOk {f : Vol} (h : CwdOk f) {fuel : Nat} (hfuel : f.fatSz * 128 ≤ fuel)
    (cs : List FatCall) (hshort : ∀ pre g, pre <+: cs → pre.foldlM (FatCall.run fuel) f = some g →
      g.cwdPath.length ≤ 254) :
    ∃ g, cs.foldlM (FatCall.run fuel) f = some g ∧ CwdOk g ∧ g.toGeo = f.toGeo := by
  induction cs using List.reverseRecOn with
  | nil => exact ⟨f, rfl, h, rfl⟩
  | append_singleton cs c ih =>
    obtain ⟨g, hrun, hok, hgeo⟩ := ih fun pre g hpre => hshort pre g (hpre.trans ⟨[c], rfl⟩)
    have hlen := hshort cs g ⟨[c], rfl⟩ hrun
    obtain ⟨g', hc, hok', hgeo'⟩ := @CwdOk.run g hok fuel (by rw [hgeo]; exact hfuel) hlen c
    refine ⟨g', ?_, hok', hgeo'.trans hgeo⟩
    rw [List.foldlM_append, hrun]
    exact (bind_pure (FatCall.run fuel g c)).trans hc

/-! ## What follows for a program -/

/-- The two records agree for every use that is made of them. -/
structure Agree (fuel : Nat) (g : Vol) : Prop where
  walks : ∀ isdir size, ∃ s,
    walk fuel g.cwdPath isdir size g = some (some ⟨g.cwdClus, true, size⟩, { g with sec := s })
  lists : ∀ cap, ∃ out s s', fatList fuel [] cap g = some (some out, { g with sec := s }) ∧
    fatList fuel g.cwdPath cap g = some (some out, { g with sec := s' })
  chdirs : ∀ cap p, fatGetcwd cap g = some (p ++ [0]) →
    ∃ g', fatChdir fuel p g = some (true, g') ∧ g'.cwdClus = g.cwdClus

theorem CwdOk.agree {g : Vol} (h : CwdOk g) {fuel : Nat} (hfuel : g.fatSz * 128 ≤ fuel)
    (hlen : g.cwdPath.length ≤ 254) : Agree fuel g := by
  obtain ⟨r, hw, hd, hclus⟩ := h.dir
  have ht := h.wf.tree
  obtain ⟨body, hbody⟩ : ∃ body, g.cwdPath = slash :: body := by
    rcases h.plain with h | ⟨c, q, h, -⟩
    · exact ⟨[], h⟩
    · exact ⟨c :: q, h⟩
  have hne : g.cwdPath ≠ [] := by
    rw [hbody]
    exact List.cons_ne_nil _ _
  -- the text of the current directory, sent through `abspath`, leads to the same place
  obtain ⟨abs, habs, hcs⟩ : ∃ abs, abspath g.cwdPath g.cwdPath = some abs ∧
      comps abs = comps g.cwdPath := by
    have hwords := h.words
    have hshort := hw.short
    rw [hbody, List.length_cons] at hlen
    rw [hbody] at hwords hshort ⊢
    exact abspath_again (slash :: body) (by omega) hwords hshort
  have hw' : WalksTo g.toGeo g.disk none abs r :=
    ⟨hcs ▸ hw.short, hcs ▸ hw.steps, fun hf => absurd (hd.symm.trans hf) (by simp)⟩
  refine ⟨fun isdir size => ?_, fun cap => ?_, fun cap p hp => ?_⟩
  · obtain ⟨s, hrun⟩ := walk_dir_spec ht hfuel h.plain hw isdir size
    have hhit : hitOf g.toGeo g.disk size r = ⟨g.cwdClus, true, size⟩ := by
      have h1 := hitOf_clus (g := g.toGeo) (d := g.disk) size r
      have h2 := hitOf_isdir (g := g.toGeo) (d := g.disk) size r
      have h3 := @hitOf_size g.toGeo g.disk size r hd
      rw [← hclus] at h1
      rw [hd] at h2
      generalize hitOf g.toGeo g.disk size r = hit at h1 h2 h3
      cases hit
      simp only at h1 h2 h3
      rw [h1, h2, h3]
    exact ⟨s, hhit ▸ hrun⟩
  · obtain ⟨cs, hcs⟩ := ht.dirChain (hw.steps.ref Ref.root) hd
    have hhere : ListsDir g [] r := ⟨hd, Or.inl ⟨rfl, hw.steps.ref Ref.root, hclus⟩⟩
    have hpath : ListsDir g g.cwdPath r := ⟨hd, Or.inr ⟨hne, abs, habs, hw'⟩⟩
    obtain ⟨s, h₁⟩ := fatList_spec ht h.plain hfuel hhere hcs cap
    obtain ⟨s', h₂⟩ := fatList_spec ht h.plain hfuel hpath hcs cap
    exact ⟨_, s, s', h₁, h₂⟩
  · obtain rfl : g.cwdPath = p := by
      unfold fatGetcwd at hp
      split at hp
      next => exact absurd hp (by simp)
      next => exact (List.append_inj' (Option.some.inj hp) rfl).1
    obtain ⟨s, hrun⟩ := walk_dir_spec ht hfuel (abspath_plain h.plain habs) hw' false 0
    refine ⟨{ g with sec := s, cwdClus := first g.toGeo g.disk r, cwdPath := abs }, ?_, hclus.symm⟩
    unfold fatChdir
    rw [if_neg hne, habs]
    dsimp only
    rw [hrun]
    dsimp only
    rw [hitOf_isdir, hd, hitOf_clus]
    rfl

/-- **The cached directory and its path agree** after any run of calls on a mounted
volume, as long as `cwd_path` stays within 254 bytes. -/
theorem run_agree {part : Nat} {f₀ f : Vol} (hm : fatMount part f₀ = (true, f))
    (hwf : WellFormed f.toGeo f.disk) {fuel : Nat} (hfuel : f.fatSz * 128 ≤ fuel)
    (cs : List FatCall) (hshort : ∀ pre g, pre <+: cs → pre.foldlM (FatCall.run fuel) f = some g →
      g.cwdPath.length ≤ 254) :
    ∃ g, cs.foldlM (FatCall.run fuel) f = some g ∧ Agree fuel g := by
  obtain ⟨g, hrun, hok, hgeo⟩ := run_cwdOk (CwdOk.mounted hm hwf) hfuel cs hshort
  exact ⟨g, hrun, hok.agree (by rw [hgeo]; exact hfuel) (hshort cs g (List.prefix_refl cs) hrun)⟩

/-- `fat_chdir("A")`, and a file is written there. -/
theorem run_agree_sample : ∃ g,
    [FatCall.chdir [65], FatCall.write [71] [1, 2]].foldlM (FatCall.run 128) sampleMounted =
      some g ∧ Agree 128 g := by
  refine run_agree sampleMounted_eq sampleVol_certified.wellFormed (by decide) _
    fun pre g hpre hrun => ?_
  have hlen : (pre.foldlM (FatCall.run 128) sampleMounted).map (fun g => g.cwdPath.length) =
      some g.cwdPath.length := by rw [hrun]; rfl
  rcases List.prefix_cons_iff.mp hpre with rfl | ⟨t, rfl, ht⟩
  · rw [← Option.some.inj hrun, (fatMount_cwd sampleMounted_eq).1]
    decide
  · have hone : ([FatCall.chdir [65]].foldlM (FatCall.run 128) sampleMounted).map
        (fun g => g.cwdPath.length) = some 2 := by decide +kernel
    have htwo : ([FatCall.chdir [65], FatCall.write [71] [1, 2]].foldlM (FatCall.run 128)
        sampleMounted).map (fun g => g.cwdPath.length) = some 2 := by decide +kernel
    rcases List.prefix_cons_iff.mp ht with rfl | ⟨t', rfl, ht'⟩
    · rw [← Option.some.inj (hone.symm.trans hlen)]
      decide
    · rw [List.prefix_nil.mp ht'] at hlen
      rw [← Option.some.inj (htwo.symm.trans hlen)]
      decide

end InaneOS.Fat
