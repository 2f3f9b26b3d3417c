import InaneOS.Fat.Looping
import InaneOS.Fat.Resolve
import InaneOS.Fat.Certify

/-!
# When a directory scan ends, on any disk

`walk`, `lookup`, `dir_slot` and `fat_list` follow cluster numbers read from the
disk and count nothing. `walk` makes one search for each component of the path, in
the directories the components before it lead to (`Looks`). `fat_list` stops when it
has no room left, so for it a cycle has to be without a visible entry (`ListLoops`).

`scans_end` says for each of the four functions exactly when it returns;
`selfLinked` is a volume whose root directory links to itself.
-/

namespace InaneOS.Fat

open InaneOS.Lib

/-! ## `walk` -/

section Walk

variable (g : Geo) (d : Disk)

/-- The first entry for `v` in the directory at cluster `c` is a directory at
cluster `c'`. -/
def Leads (c : Nat) (v : Str) (c' : Nat) : Prop :=
  ∃ n size, (∀ k < n, (nextOf g d)^[k] c < eoc) ∧
    gathered none (walkBody v [] 0) g d n c () = .error (some ⟨c', true, size⟩)

/-- The components `vs` lead from cluster `c` to the directory at cluster `c'`. -/
def LeadsTo : Nat → List Str → Nat → Prop
  | c, [], c' => c = c'
  | c, v :: vs, c' => v.length ≤ 12 ∧ ∃ c₁, Leads g d c v c₁ ∧ LeadsTo c₁ vs c'

/-- On the way along `vs` from cluster `c`, the component `v` is looked for in the
directory at cluster `c'`. -/
def Looks (c : Nat) (vs : List Str) (c' : Nat) (v : Str) : Prop :=
  ∃ pre post, vs = pre ++ v :: post ∧ v.length ≤ 12 ∧ LeadsTo g d c pre c'

/-- The search for a component does not end. -/
def WalkLoops (v : Str) (c : Nat) : Prop := Loops (walkBody v [] 0) g d c

end Walk

/-- What follows in the path and the size found so far only change what is
reported. -/
theorem walkBody_map (v : Str) {p : Str} (hp : goesOn p = false) (size : Nat) (a : Unit) (l o : Nat)
    (s : Sector) : walkBody v p size a l o s = (walkBody v [] 0 a l o s).mapError
      (Option.map fun h => if h.isdir then { h with size := size } else h) := by
  have hnil : goesOn [] = false := rfl
  unfold walkBody
  dsimp only
  split
  next => rfl
  next =>
    cases entryName (entryAt s o) with
    | none => rfl
    | some nm =>
      dsimp only
      rw [hp, hnil]
      split
      next => rfl
      next =>
        split
        next => rfl
        next => rfl

theorem walk_gathered (v : Str) {p : Str} (hp : goesOn p = false) (size : Nat) (g : Geo) (d : Disk)
    (n c : Nat) : gathered none (walkBody v p size) g d n c () =
      (gathered none (walkBody v [] 0) g d n c ()).mapError
        (Option.map fun h => if h.isdir then { h with size := size } else h) :=
  gathered_map none (walkBody v [] 0) rfl (walkBody_map v hp size) g d n c ()

theorem walkBody_loops (v : Str) {p : Str} (hp : goesOn p = false) (size : Nat) (g : Geo) (d : Disk)
    (c : Nat) : Loops (walkBody v p size) g d c ↔ WalkLoops g d v c := by
  have hpass : ∀ c, Passes (walkBody v p size) g d c ↔ Passes (walkBody v [] 0) g d c := by
    intro c
    unfold Passes
    have hok : ∀ (a : Unit) l o s, walkBody v p size a l o s = .ok () ↔
        walkBody v [] 0 a l o s = .ok () := by
      intro a l o s
      rw [walkBody_map v hp]
      cases walkBody v [] 0 a l o s with
      | error r => exact iff_of_false (by simp [Except.mapError]) (by simp)
      | ok b => exact iff_of_true rfl rfl
    simp only [hok]
  simp only [WalkLoops, Loops, hpass]

theorem Looks.cons_iff {g : Geo} {d : Disk} {c c' : Nat} {v w : Str} {vs : List Str} :
    Looks g d c (v :: vs) c' w ↔ v.length ≤ 12 ∧
      (c = c' ∧ v = w ∨ ∃ c₁, Leads g d c v c₁ ∧ Looks g d c₁ vs c' w) := by
  constructor
  · intro h
    obtain ⟨pre, post, hvs, hw, hl⟩ := h
    cases pre with
    | nil =>
      obtain ⟨rfl, rfl⟩ := List.cons.inj hvs
      exact ⟨hw, Or.inl ⟨hl, rfl⟩⟩
    | cons u pre =>
      obtain ⟨rfl, rfl⟩ := List.cons.inj hvs
      obtain ⟨hv, c₁, hc₁, hl⟩ := hl
      exact ⟨hv, Or.inr ⟨c₁, hc₁, pre, post, rfl, hw, hl⟩⟩
  · intro h
    obtain ⟨hv, ⟨rfl, rfl⟩ | ⟨c₁, hc₁, pre, post, rfl, hw, hl⟩⟩ := h
    · exact ⟨[], vs, rfl, hv, rfl⟩
    · exact ⟨v :: pre, post, rfl, hw, hv, c₁, hc₁, hl⟩

/-- What a search for `v` returns, in terms of the disk. -/
theorem search_found {fuel c : Nat} {v p : Str} (hp : goesOn p = false) {size : Nat} {f f' : Vol}
    {h : Hit} (hd : h.isdir = true)
    (hx : scanDir none (walkBody v p size) fuel c 0 () f = some (.error (some h), f')) :
    Leads f.toGeo f.disk c v h.clus := by
  obtain ⟨n, hlt, hn⟩ := gathered_of_stopped none (walkBody v p size) hx
  rw [walk_gathered v hp] at hn
  cases hg : gathered none (walkBody v [] 0) f.toGeo f.disk n c () with
  | ok b =>
    rw [hg] at hn
    exact absurd hn (by simp [Except.mapError])
  | error r =>
    rw [hg] at hn
    cases r with
    | none => exact absurd hn (by simp [Except.mapError])
    | some h₀ =>
      have he := Option.some.inj (Except.error.inj hn)
      dsimp only at he
      have hdir : h₀.isdir = true := by
        by_contra hno
        rw [if_neg hno] at he
        exact hno (he ▸ hd)
      rw [if_pos hdir] at he
      refine ⟨n, h₀.size, hlt, ?_⟩
      rw [hg, ← he, ← hdir]

theorem search_leads {fuel c c' : Nat} {v p : Str} (hp : goesOn p = false) {size : Nat} {f : Vol}
    (hl : Leads f.toGeo f.disk c v c') {x : Except (Option Hit) (Unit × Nat) × Vol}
    (hx : scanDir none (walkBody v p size) fuel c 0 () f = some x) :
    x.1 = .error (some ⟨c', true, size⟩) := by
  obtain ⟨n, size₀, hlt, hn⟩ := hl
  refine scanDir_stopped none (walkBody v p size) hlt ?_ hx
  rw [walk_gathered v hp, hn]
  rfl

theorem walkLoop_mono {fuel fuel' : Nat} (hle : fuel ≤ fuel') : ∀ {k : Nat} {path : Str} {h : Hit}
    {f : Vol} {r : Option Hit × Vol}, walkLoop fuel k path h f = some r →
    walkLoop fuel' k path h f = some r
  | 0, _, _, _, _, hr => hr
  | k + 1, path, h, f, r, hr => by
    rcases skipSlash_cases path with ⟨hnil, -⟩ | ⟨v, rest, hround⟩
    · rw [walkLoop_end hnil] at hr ⊢
      exact hr
    · rcases Nat.lt_or_ge 12 v.length with hlong | hshort
      · rw [hround.walk_long hlong] at hr ⊢
        exact hr
      · rw [hround.walk hshort] at hr ⊢
        cases hs : scanDir none (walkBody v rest h.size) fuel h.clus 0 () f with
        | none =>
          rw [hs] at hr
          exact absurd hr (by simp)
        | some x =>
          rw [scanDir_mono none _ hle hs]
          rw [hs] at hr
          obtain ⟨(_ | h₁) | _, f₁⟩ := x
          · exact hr
          · dsimp only at hr ⊢
            split at hr
            next hfile =>
              rw [if_pos hfile]
              exact hr
            next hfile =>
              rw [if_neg hfile]
              exact walkLoop_mono hle hr
          · exact hr

/-- **The component loop of `walk` returns** unless a search on its way loops. -/
theorem walkLoop_returns : ∀ (k : Nat) (path : Str) (h : Hit) (f : Vol), path.length ≤ k →
    ((∃ fuel r, walkLoop fuel k path h f = some r) ↔
      ∀ c v, Looks f.toGeo f.disk h.clus (comps path) c v → ¬ WalkLoops f.toGeo f.disk v c)
  | 0, path, h, f, hk => by
    refine iff_of_true ⟨0, _, rfl⟩ fun c v hlook => ?_
    rw [List.length_eq_zero_iff.mp (Nat.le_zero.mp hk)] at hlook
    obtain ⟨pre, post, hnil, -⟩ := hlook
    exact absurd hnil (by simp [comps, pieces_nil])
  | k + 1, path, h, f, hk => by
    rcases skipSlash_cases path with ⟨hnil, hcs⟩ | ⟨v, r, hr⟩
    · refine iff_of_true ⟨0, _, walkLoop_end hnil ..⟩ fun c w hlook => ?_
      rw [hcs] at hlook
      obtain ⟨pre, post, hno, -⟩ := hlook
      exact absurd hno (by simp)
    · simp only [hr.comps_eq, Looks.cons_iff]
      by_cases hshort : v.length ≤ 12
      · have hgo : goesOn r = false := (hr.short hshort).2
        have hround := hr.walk hshort
        have hrk : r.length ≤ k := hr.rest_le hk
        have hsearch := search_returns none (walkBody v r h.size) h.clus 0 f
        rw [walkBody_loops v hgo] at hsearch
        constructor
        · intro h
          obtain ⟨fuel, res, hres⟩ := h
          rw [hround] at hres
          cases hs : scanDir none (walkBody v r h.size) fuel h.clus 0 () f with
          | none =>
            rw [hs] at hres
            exact absurd hres (by simp)
          | some x =>
            intro c w h
            obtain ⟨-, ⟨rfl, rfl⟩ | ⟨c₁, hlead, hlook⟩⟩ := h
            · exact hsearch.mp ⟨fuel, x, hs⟩
            · have hx := search_leads hgo hlead hs
              obtain ⟨e, f₁⟩ := x
              obtain rfl : e = _ := hx
              obtain ⟨s, rfl⟩ := scanDir_looked _ _ _ _ _ _ _ hs
              rw [hs] at hres
              have hrec := (walkLoop_returns k r ⟨c₁, true, h.size⟩ { f with sec := s } hrk).mp
                ⟨fuel, res, by simpa using hres⟩
              exact hrec c w hlook
        · intro hall
          obtain ⟨fuel, ⟨e, f₁⟩, hs⟩ := hsearch.mpr (hall h.clus v ⟨hshort, Or.inl ⟨rfl, rfl⟩⟩)
          obtain ⟨s, rfl⟩ := scanDir_looked _ _ _ _ _ _ _ hs
          rcases e with (_ | h₁) | _
          · exact ⟨fuel, _, by rw [hround, hs]⟩
          · by_cases hdir : h₁.isdir = true
            · have hlead := search_found hgo hdir hs
              obtain ⟨fuel₂, res, hres⟩ := (walkLoop_returns k r h₁ { f with sec := s } hrk).mpr
                fun c w hlook => hall c w ⟨hshort, Or.inr ⟨h₁.clus, hlead, hlook⟩⟩
              refine ⟨max fuel fuel₂, res, ?_⟩
              rw [hround, scanDir_mono none _ (Nat.le_max_left ..) hs]
              dsimp only
              rw [if_neg (by simp [hdir])]
              exact walkLoop_mono (Nat.le_max_right ..) hres
            · by_cases hend : r = []
              · refine ⟨fuel, (some h₁, { f with sec := s }), ?_⟩
                rw [hround, hs]
                dsimp only
                rw [if_neg (by simp [hend]), hend]
                cases k with
                | zero => rfl
                | succ k => rfl
              · exact ⟨fuel, _, by rw [hround, hs]; simp [hdir, hend]; rfl⟩
          · exact ⟨fuel, _, by rw [hround, hs]⟩
      · exact iff_of_true ⟨0, (none, f), hr.walk_long (Nat.lt_of_not_le hshort) ..⟩
          fun c w hlook => absurd hlook.1 hshort

/-- A directory `walk` reports is where the components lead. -/
theorem walkLoop_leads {fuel : Nat} : ∀ {k : Nat} {path : Str} {h h' : Hit} {f f' : Vol},
    path.length ≤ k → walkLoop fuel k path h f = some (some h', f') → h'.isdir = true →
    comps path = [] ∧ h' = h ∨
      comps path ≠ [] ∧ LeadsTo f.toGeo f.disk h.clus (comps path) h'.clus
  | 0, path, h, h', f, f', hk, hrun, _ => by
    rw [List.length_eq_zero_iff.mp (Nat.le_zero.mp hk)]
    exact Or.inl ⟨rfl, (Option.some.inj (Prod.mk.inj (Option.some.inj hrun)).1).symm⟩
  | k + 1, path, h, h', f, f', hk, hrun, hdir => by
    rcases skipSlash_cases path with ⟨hnil, hcs⟩ | ⟨v, r, hr⟩
    · rw [walkLoop_end hnil] at hrun
      exact Or.inl ⟨hcs, (Option.some.inj (Prod.mk.inj (Option.some.inj hrun)).1).symm⟩
    · refine Or.inr ⟨by rw [hr.comps_eq]; exact List.cons_ne_nil _ _, ?_⟩
      rw [hr.comps_eq]
      by_cases hshort : v.length ≤ 12
      · have hgo : goesOn r = false := (hr.short hshort).2
        have hrk : r.length ≤ k := hr.rest_le hk
        rw [hr.walk hshort] at hrun
        rcases hs : scanDir none (walkBody v r h.size) fuel h.clus 0 () f with _ | ⟨res, f₁⟩
        · rw [hs] at hrun
          exact absurd hrun (by simp)
        · obtain ⟨s, rfl⟩ := scanDir_looked _ _ _ _ _ _ _ hs
          rw [hs] at hrun
          match res, hs, hrun with
          | .ok _, _, hrun => exact absurd (Prod.mk.inj (Option.some.inj hrun)).1 (by simp)
          | .error none, _, hrun => exact absurd (Prod.mk.inj (Option.some.inj hrun)).1 (by simp)
          | .error (some h₁), hs, hrun =>
            dsimp only at hrun
            split at hrun
            next => exact absurd (Prod.mk.inj (Option.some.inj hrun)).1 (by simp)
            next hfile =>
              rcases walkLoop_leads hrk hrun hdir with ⟨hnil, rfl⟩ | ⟨hcr, hl⟩
              · rw [hnil]
                exact ⟨hshort, _, search_found hgo hdir hs, rfl⟩
              · by_cases hd₁ : h₁.isdir = true
                · exact ⟨hshort, _, search_found hgo hd₁ hs, hl⟩
                · have hrnil : r = [] := by
                    by_contra hrn
                    exact hfile ⟨by simpa using hd₁, hrn⟩
                  rw [hrnil] at hcr
                  exact absurd rfl hcr
      · rw [hr.walk_long (Nat.lt_of_not_le hshort)] at hrun
        exact absurd (Prod.mk.inj (Option.some.inj hrun)).1 (by simp)

/-- Where the components lead, `walk` reports a directory. -/
theorem walkLoop_led {fuel : Nat} : ∀ {k : Nat} {path : Str} {h : Hit} {f f' : Vol} {c : Nat}
    {r : Option Hit}, path.length ≤ k → (h.isdir = true ∨ comps path ≠ []) →
    LeadsTo f.toGeo f.disk h.clus (comps path) c → walkLoop fuel k path h f = some (r, f') →
    ∃ h', r = some h' ∧ h'.isdir = true ∧ h'.clus = c
  | 0, path, h, f, f', c, r, hk, hdir, hl, hrun => by
    rw [List.length_eq_zero_iff.mp (Nat.le_zero.mp hk)] at hl hdir
    exact ⟨h, (Prod.mk.inj (Option.some.inj hrun)).1.symm, hdir.resolve_right fun h => h rfl, hl⟩
  | k + 1, path, h, f, f', c, r, hk, hdir, hl, hrun => by
    rcases skipSlash_cases path with ⟨hnil, hcs⟩ | ⟨v, rest, hr⟩
    · rw [walkLoop_end hnil] at hrun
      rw [hcs] at hl hdir
      exact ⟨h, (Prod.mk.inj (Option.some.inj hrun)).1.symm, hdir.resolve_right fun h => h rfl, hl⟩
    · rw [hr.comps_eq] at hl
      obtain ⟨hshort, c₁, hlead, hl⟩ := hl
      have hgo : goesOn rest = false := (hr.short hshort).2
      have hrk : rest.length ≤ k := hr.rest_le hk
      rw [hr.walk hshort] at hrun
      rcases hs : scanDir none (walkBody v rest h.size) fuel h.clus 0 () f with _ | ⟨e, f₁⟩
      · rw [hs] at hrun
        exact absurd hrun (by simp)
      · obtain ⟨s, rfl⟩ := scanDir_looked _ _ _ _ _ _ _ hs
        obtain rfl : e = _ := search_leads hgo hlead hs
        rw [hs] at hrun
        exact walkLoop_led (h := ⟨c₁, true, h.size⟩) (f := { f with sec := s }) hrk (Or.inl rfl) hl
          (by simpa using hrun)

/-- `walk(abs)` comes to the directory at cluster `c`. -/
def WalkDir (g : Geo) (d : Disk) (abs : Str) (c : Nat) : Prop :=
  (abs = [] ∨ abs = [slash]) ∧ c = g.rootClus ∨
    comps abs ≠ [] ∧ LeadsTo g d g.rootClus (comps abs) c

theorem walk_dir {fuel : Nat} {abs : Str} {f f' : Vol} {h : Hit}
    (hw : walk fuel abs false 0 f = some (some h, f')) (hd : h.isdir = true) :
    WalkDir f.toGeo f.disk abs h.clus := by
  simp only [walk, nameSame_iff] at hw
  split at hw
  next hroot =>
    refine Or.inl ⟨hroot, ?_⟩
    rw [← Option.some.inj (Prod.mk.inj (Option.some.inj hw)).1]
  next =>
    rcases walkLoop_leads (Nat.le_refl _) hw hd with ⟨-, rfl⟩ | hl
    · exact absurd hd (by simp)
    · exact Or.inr hl

theorem dir_walk {fuel : Nat} {abs : Str} {f f' : Vol} {c : Nat} {r : Option Hit}
    (hc : WalkDir f.toGeo f.disk abs c) (hw : walk fuel abs false 0 f = some (r, f')) :
    ∃ h, r = some h ∧ h.isdir = true ∧ h.clus = c := by
  simp only [walk, nameSame_iff] at hw
  rcases hc with ⟨hroot, rfl⟩ | ⟨hne, hl⟩
  · rw [if_pos hroot] at hw
    exact ⟨_, (Prod.mk.inj (Option.some.inj hw)).1.symm, rfl, rfl⟩
  · rw [if_neg] at hw
    · exact walkLoop_led (Nat.le_refl _) (Or.inr hne) hl hw
    · intro h
      rcases h with rfl | rfl
      · exact hne rfl
      · exact hne (by decide)

/-- **`walk` returns** unless a search on its way loops. -/
theorem walk_returns (abs : Str) (isdir : Bool) (size : Nat) (f : Vol) :
    (∃ fuel r, walk fuel abs isdir size f = some r) ↔
      ∀ c v, Looks f.toGeo f.disk f.rootClus (comps abs) c v → ¬ WalkLoops f.toGeo f.disk v c := by
  simp only [walk, nameSame_iff]
  by_cases hroot : abs = [] ∨ abs = [slash]
  · simp only [if_pos hroot]
    refine iff_of_true ⟨0, _, rfl⟩ fun c v hlook => ?_
    have hnil : comps abs = [] := by
      rcases hroot with rfl | rfl
      · rfl
      · decide
    rw [hnil] at hlook
    obtain ⟨pre, post, hno, -⟩ := hlook
    exact absurd hno (by simp)
  · simp only [if_neg hroot]
    exact walkLoop_returns abs.length abs ⟨f.rootClus, isdir, size⟩ f (Nat.le_refl _)

/-! ## `fat_list` -/

section List

variable {cap : Nat} {g : Geo} {d : Disk}

/-- An entry `fat_list` goes past without a line. -/
def BlankAt (s : Sector) (o : Nat) : Prop := s o ≠ 0 ∧ entryName (entryAt s o) = none

/-- A cluster without a terminator and without a visible entry. -/
def Blank (g : Geo) (d : Disk) (c : Nat) : Prop :=
  ∀ s < g.secPerClus, d.drive.reads (clusLba c g + s) ∧
    ∀ i < 16, BlankAt (d.data (clusLba c g + s)) (i * 32)

/-- A step from `out` to `out'` either found nothing to list, or it added to a list
that still fits. -/
def Lists (cap : Nat) (blank : Prop) (out out' : Str) : Prop :=
  blank ∧ out' = out ∨ out.length < out'.length ∧ out'.length ≤ cap

theorem Lists.trans {b b' : Prop} {out out₁ out' : Str} (h : Lists cap b out out₁)
    (h' : Lists cap b' out₁ out') : Lists cap (b ∧ b') out out' := by
  rcases h with ⟨hb, rfl⟩ | ⟨hlt, hle⟩
  · rcases h' with ⟨hb', rfl⟩ | ⟨hlt', hle'⟩
    · exact Or.inl ⟨⟨hb, hb'⟩, rfl⟩
    · exact Or.inr ⟨hlt', hle'⟩
  · rcases h' with ⟨-, rfl⟩ | ⟨hlt', hle'⟩
    · exact Or.inr ⟨hlt, hle⟩
    · exact Or.inr ⟨Nat.lt_trans hlt hlt', hle'⟩

theorem Lists.imp {b b' : Prop} (hb : b → b') {out out' : Str} (h : Lists cap b out out') :
    Lists cap b' out out' := by
  rcases h with ⟨h, he⟩ | h
  · exact Or.inl ⟨hb h, he⟩
  · exact Or.inr h

theorem listBody_ok {out out' : Str} {l o : Nat} {s : Sector}
    (h : listBody cap out l o s = .ok out') : Lists cap (BlankAt s o) out out' := by
  unfold listBody at h
  dsimp only at h
  split at h
  next => exact absurd h (by simp)
  next h0 =>
    split at h
    next hn => exact Or.inl ⟨⟨h0, hn⟩, (Except.ok.inj h).symm⟩
    next nm hn =>
      split at h
      next => exact absurd h (by simp)
      next hfit =>
        rw [← Except.ok.inj h]
        refine Or.inr ?_
        simp only [List.length_append, List.length_singleton]
        split
        · simp only [List.length_singleton]
          omega
        · simp only [List.length_nil]
          omega

theorem listBody_blank {l o : Nat} {s : Sector} (h : BlankAt s o) (out : Str) :
    listBody cap out l o s = .ok out := by
  have h0 : entryAt s o 0 ≠ 0 := h.1
  rw [listBody, if_neg h0, h.2]

theorem scanSec_lists {l : Nat} {s : Sector} {out out' : Str}
    (h : scanSec (listBody cap) l s out = .ok out') :
    Lists cap (∀ i < 16, BlankAt s (i * 32)) out out' := by
  have hfold : ∀ (is : List Nat) (out : Str),
      is.foldlM (fun a i => listBody cap a l (i * 32) s) out = .ok out' →
      Lists cap (∀ i ∈ is, BlankAt s (i * 32)) out out' := by
    intro is
    induction is with
    | nil => exact fun out h => Or.inl ⟨by simp, (Except.ok.inj h).symm⟩
    | cons i is ih =>
      intro out h
      rw [List.foldlM_cons] at h
      cases hb : listBody cap out l (i * 32) s with
      | error r =>
        rw [hb] at h
        exact absurd h (by simp [bind, Except.bind])
      | ok b =>
        rw [hb] at h
        exact ((listBody_ok hb).trans (ih b h)).imp fun hboth =>
          List.forall_mem_cons.mpr hboth
  exact (hfold (List.range 16) out h).imp fun hall i hi => hall i (List.mem_range.mpr hi)

theorem scanSec_blank {l : Nat} {s : Sector} (h : ∀ i < 16, BlankAt s (i * 32)) (out : Str) :
    scanSec (listBody cap) l s out = .ok out := by
  have hfold : ∀ is : List Nat, (∀ i ∈ is, i < 16) →
      is.foldlM (fun a i => listBody cap a l (i * 32) s) out = .ok out := by
    intro is
    induction is with
    | nil => exact fun _ => rfl
    | cons i is ih =>
      intro his
      rw [List.foldlM_cons, listBody_blank (h i (his i (List.mem_cons_self ..)))]
      exact ih fun j hj => his j (List.mem_cons_of_mem _ hj)
  exact hfold (List.range 16) fun i hi => List.mem_range.mp hi

theorem clusOf_lists {c : Nat} {out out' : Str}
    (h : clusOf none (listBody cap) g d c out = .ok out') :
    Lists cap (Blank g d c) out out' := by
  have hrun : ∀ (n l : Nat) (out : Str), clusRun none (listBody cap) d n l out = .ok out' →
      Lists cap (∀ s < n, d.drive.reads (l + s) ∧ ∀ i < 16, BlankAt (d.data (l + s)) (i * 32))
        out out' := by
    intro n
    induction n with
    | zero => exact fun l out h => Or.inl ⟨by simp, (Except.ok.inj h).symm⟩
    | succ n ih =>
      intro l out h
      rw [clusRun] at h
      split at h
      next hl =>
        cases hs : scanSec (listBody cap) l (d.data l) out with
        | error r =>
          rw [hs] at h
          exact absurd h (by simp)
        | ok b =>
          rw [hs] at h
          refine ((scanSec_lists hs).trans (ih (l + 1) b h)).imp ?_
          intro h s hs
          obtain ⟨hhere, hrest⟩ := h
          cases s with
          | zero => exact ⟨hl, hhere⟩
          | succ s =>
            rw [← Nat.add_assoc, Nat.add_right_comm]
            exact hrest s (by omega)
      next => exact absurd h (by simp)
  exact hrun g.secPerClus (clusLba c g) out h

theorem clusOf_blank {c : Nat} (h : Blank g d c) (out : Str) :
    clusOf none (listBody cap) g d c out = .ok out := by
  have hrun : ∀ (n l : Nat), (∀ s < n, d.drive.reads (l + s) ∧
      ∀ i < 16, BlankAt (d.data (l + s)) (i * 32)) →
      clusRun none (listBody cap) d n l out = .ok out := by
    intro n
    induction n with
    | zero => exact fun l _ => rfl
    | succ n ih =>
      intro l hl
      obtain ⟨hlt, hb⟩ : d.drive.reads l ∧ ∀ i < 16, BlankAt (d.data l) (i * 32) := hl 0 (by omega)
      rw [clusRun, if_pos hlt, scanSec_blank hb]
      refine ih (l + 1) fun s hs => ?_
      rw [Nat.add_right_comm, Nat.add_assoc]
      exact hl (s + 1) (by omega)
  exact hrun g.secPerClus (clusLba c g) h

/-- The chain from `c` comes back to a cluster; the lines of the clusters before the
cycle fit into `cap` bytes, and the cycle has no line. -/
def ListLoops (g : Geo) (d : Disk) (cap c : Nat) : Prop :=
  ∃ i j, i < j ∧ (nextOf g d)^[i] c = (nextOf g d)^[j] c ∧
    (∀ k < j, (nextOf g d)^[k] c < eoc) ∧
    (∃ out, gathered none (listBody cap) g d i c [] = .ok out) ∧
    ∀ k, i ≤ k → k < j → Blank g d ((nextOf g d)^[k] c)

/-- A longer scan has listed at least as much. -/
theorem gathered_length {n c : Nat} {out : Str}
    (h : gathered none (listBody cap) g d n c [] = .ok out) : ∀ (k : Nat) {out' : Str},
    gathered none (listBody cap) g d (n + k) c [] = .ok out' → out.length ≤ out'.length
  | 0, out', h' => by
    rw [Nat.add_zero, h] at h'
    rw [Except.ok.inj h']
  | k + 1, out', h' => by
    obtain ⟨b, hb⟩ := gathered_before none (listBody cap) g d (show n + k ≤ n + (k + 1) by omega) h'
    have hle := gathered_length h k hb
    rw [← Nat.add_assoc, gathered_succ none (listBody cap) g d (n + k) c [] b hb] at h'
    rcases clusOf_lists h' with ⟨-, rfl⟩ | ⟨hlt, -⟩
    · exact hle
    · omega

/-- A cycle that a listing goes round for ever has no line. -/
theorem cycle_blank {c i j k : Nat} (hij : i < j) (he : (nextOf g d)^[i] c = (nextOf g d)^[j] c)
    (hall : ∀ n, ∃ out, gathered none (listBody cap) g d n c [] = .ok out) (hik : i ≤ k) :
    Blank g d ((nextOf g d)^[k] c) := by
  by_contra hno
  have hstep : ∀ n, (nextOf g d)^[n] c = (nextOf g d)^[k] c → ∀ {out out' : Str},
      gathered none (listBody cap) g d n c [] = .ok out →
      gathered none (listBody cap) g d (n + 1) c [] = .ok out' →
      out.length < out'.length ∧ out'.length ≤ cap := by
    intro n hn out out' h h'
    rw [gathered_succ none (listBody cap) g d n c [] out h, hn] at h'
    rcases clusOf_lists h' with ⟨hb, -⟩ | hgrow
    · exact absurd hb hno
    · exact hgrow
  -- each time round the list is longer
  have hmany : ∀ t, ∃ n, i ≤ n ∧ (nextOf g d)^[n] c = (nextOf g d)^[k] c ∧ ∀ out,
      gathered none (listBody cap) g d n c [] = .ok out → t ≤ out.length := by
    intro t
    induction t with
    | zero => exact ⟨k, hik, rfl, fun out _ => Nat.zero_le _⟩
    | succ t ih =>
      obtain ⟨n, hin, hn, hlen⟩ := ih
      refine ⟨n + (j - i), by omega, by rw [orbit_round hij he hin, hn], fun out hout => ?_⟩
      obtain ⟨b, hb⟩ := hall n
      obtain ⟨b', hb'⟩ := hall (n + 1)
      have hlt := (hstep n hn hb hb').1
      have ht := hlen b hb
      have hround : n + 1 + (j - i - 1) = n + (j - i) := by omega
      have hle := gathered_length hb' (j - i - 1) (hround ▸ hout)
      omega
  obtain ⟨n, -, hn, hlen⟩ := hmany (cap + 1)
  obtain ⟨b, hb⟩ := hall n
  obtain ⟨b', hb'⟩ := hall (n + 1)
  have hle := (hstep n hn hb hb').2
  have hlt := (hstep n hn hb hb').1
  have ht := hlen b hb
  omega

/-- **A listing returns** unless it loops. -/
theorem listing_returns (c prev : Nat) (f : Vol) :
    (∃ fuel x, scanDir none (listBody cap) fuel c prev [] f = some x) ↔
      ¬ ListLoops f.toGeo f.disk cap c := by
  rw [scanDir_returns]
  constructor
  · intro h hx
    obtain ⟨n, hstop⟩ := h
    obtain ⟨i, j, hij, he, hlt, ⟨out, hout⟩, hblank⟩ := hx
    have heoc : ∀ n, (nextOf f.toGeo f.disk)^[n] c < eoc :=
      @orbit_all _ _ c i j hij he (· < eoc) hlt
    have hall : ∀ m, ∃ out, gathered none (listBody cap) f.toGeo f.disk m c [] = .ok out := by
      intro m
      induction m with
      | zero => exact ⟨[], rfl⟩
      | succ m ih =>
        by_cases hm : m < i
        · exact gathered_before none (listBody cap) f.toGeo f.disk hm hout
        · obtain ⟨b, hb⟩ := ih
          obtain ⟨k, hik, hkj, hk⟩ := orbit_cycle hij he m (by omega)
          refine ⟨b, ?_⟩
          rw [gathered_succ none (listBody cap) f.toGeo f.disk m c [] b hb, hk]
          exact clusOf_blank (hblank k hik hkj) b
    rcases hstop with hn | ⟨r, hr⟩
    · exact absurd (heoc n) (by omega)
    · obtain ⟨b, hb⟩ := hall n
      rw [hb] at hr
      exact absurd hr (by simp)
  · intro hno
    by_contra hgo
    rw [not_exists] at hgo
    have heoc : ∀ n, (nextOf f.toGeo f.disk)^[n] c < eoc := fun n =>
      Nat.lt_of_not_le fun h => hgo n (Or.inl h)
    have hall : ∀ n, ∃ out, gathered none (listBody cap) f.toGeo f.disk n c [] = .ok out := by
      intro n
      cases hg : gathered none (listBody cap) f.toGeo f.disk n c [] with
      | ok out => exact ⟨out, rfl⟩
      | error r => exact absurd (Or.inr ⟨r, hg⟩) (hgo n)
    obtain ⟨i, j, hij, he⟩ := orbit_repeats heoc
    exact hno ⟨i, j, hij, he, fun k _ => heoc k, hall i, fun k hik _ => cycle_blank hij he hall hik⟩

end List

/-! ## The four functions -/

/-- The directory `fat_list(path)` lists. -/
def ListsAt (f : Vol) (path : Str) (c : Nat) : Prop :=
  path = [] ∧ c = f.cwdClus ∨
    path ≠ [] ∧ ∃ abs, abspath f.cwdPath path = some abs ∧ WalkDir f.toGeo f.disk abs c

theorem walk_mono {fuel fuel' : Nat} (hle : fuel ≤ fuel') {abs : Str} {isdir : Bool} {size : Nat}
    {f : Vol} {r : Option Hit × Vol} (h : walk fuel abs isdir size f = some r) :
    walk fuel' abs isdir size f = some r := by
  unfold walk at h ⊢
  split at h
  next hroot =>
    rw [if_pos hroot]
    exact h
  next hroot =>
    rw [if_neg hroot]
    exact walkLoop_mono hle h

/-- The loop of `fat_list` and its result. -/
def listScan (fuel cap c : Nat) (f : Vol) : Option (Option Str × Vol) :=
  match scanDir none (listBody cap) fuel c 0 [] f with
  | none => none
  | some (.error r, f) => some (r, f)
  | some (.ok (out, _), f) => some (some out, f)

theorem fatList_eq (fuel : Nat) (path : Str) (cap : Nat) (f : Vol) : fatList fuel path cap f =
    match abspath f.cwdPath path with
    | none => some (none, f)
    | some abs =>
      if path = [] then listScan fuel cap f.cwdClus f
      else
        match walk fuel abs false 0 f with
        | none => none
        | some (none, f) => some (none, f)
        | some (some h, f) => if !h.isdir then some (none, f) else listScan fuel cap h.clus f := rfl

theorem listScan_some {fuel cap c : Nat} {f : Vol} :
    (∃ r, listScan fuel cap c f = some r) ↔
      ∃ x, scanDir none (listBody cap) fuel c 0 [] f = some x := by
  unfold listScan
  rcases scanDir none (listBody cap) fuel c 0 [] f with _ | ⟨res, f₁⟩
  · simp
  · cases res with
    | error r => exact iff_of_true ⟨_, rfl⟩ ⟨_, rfl⟩
    | ok b => exact iff_of_true ⟨_, rfl⟩ ⟨_, rfl⟩

theorem listScan_mono {fuel fuel' cap c : Nat} (hle : fuel ≤ fuel') {f : Vol}
    {r : Option Str × Vol} (h : listScan fuel cap c f = some r) :
    listScan fuel' cap c f = some r := by
  unfold listScan at h ⊢
  cases hs : scanDir none (listBody cap) fuel c 0 [] f with
  | none =>
    rw [hs] at h
    exact absurd h (by simp)
  | some x =>
    rw [scanDir_mono none (listBody cap) hle hs]
    rw [hs] at h
    exact h

theorem listScan_returns (cap c : Nat) (f : Vol) :
    (∃ fuel r, listScan fuel cap c f = some r) ↔ ¬ ListLoops f.toGeo f.disk cap c := by
  simp only [listScan_some]
  exact listing_returns c 0 f

/-- **`fat_list` returns** unless a search on the way or the listing loops. -/
theorem fatList_returns (path : Str) (cap : Nat) (f : Vol) :
    (∃ fuel r, fatList fuel path cap f = some r) ↔
      (path ≠ [] → ∀ abs, abspath f.cwdPath path = some abs → ∀ c v,
        Looks f.toGeo f.disk f.rootClus (comps abs) c v → ¬ WalkLoops f.toGeo f.disk v c) ∧
      ∀ c, ListsAt f path c → ¬ ListLoops f.toGeo f.disk cap c := by
  simp only [fatList_eq]
  by_cases hp : path = []
  · have habs : abspath f.cwdPath path = some (cwdOut f.cwdPath) := by
      rw [hp]
      rfl
    simp only [habs, if_pos hp]
    rw [listScan_returns]
    refine ⟨fun h => ⟨fun hne => absurd hp hne, ?_⟩, fun h => h.2 _ (Or.inl ⟨hp, rfl⟩)⟩
    intro c h
    rcases h with ⟨-, rfl⟩ | ⟨hne, -⟩
    · exact h
    · exact absurd hp hne
  · cases habs : abspath f.cwdPath path with
    | none =>
      refine iff_of_true ⟨0, _, rfl⟩ ⟨fun _ abs h => absurd h (by simp), ?_⟩
      intro c hx
      rcases hx with ⟨hnil, -⟩ | ⟨-, abs, h, -⟩
      · exact absurd hnil hp
      · exact absurd (habs.symm.trans h) (by simp)
    | some abs =>
      simp only [if_neg hp]
      constructor
      · intro hx
        obtain ⟨fuel, r, h⟩ := hx
        rcases hw : walk fuel abs false 0 f with _ | ⟨res, f₁⟩
        · rw [hw] at h
          exact absurd h (by simp)
        · refine ⟨fun _ abs' habs' => ?_, ?_⟩
          · rw [← Option.some.inj habs']
            exact (walk_returns abs false 0 f).mp ⟨fuel, _, hw⟩
          · intro c h
            rcases h with ⟨hnil, -⟩ | ⟨-, abs', habs', hc⟩
            · exact absurd hnil hp
            · obtain rfl : abs = abs' := Option.some.inj (habs.symm.trans habs')
              obtain ⟨hit, rfl, hdir, rfl⟩ := dir_walk hc hw
              obtain ⟨s, rfl⟩ := walk_looked hw
              rw [hw] at h
              dsimp only at h
              rw [if_neg (by simp [hdir])] at h
              exact (listScan_returns cap hit.clus { f with sec := s }).mp ⟨fuel, r, h⟩
      · intro h
        obtain ⟨hlook, hlist⟩ := h
        obtain ⟨fuel, ⟨res, f₁⟩, hw⟩ := (walk_returns abs false 0 f).mpr (hlook hp abs rfl)
        cases res with
        | none => exact ⟨fuel, _, by rw [hw]⟩
        | some hit =>
          by_cases hdir : hit.isdir = true
          · have hnot := hlist hit.clus (Or.inr ⟨hp, abs, habs, walk_dir hw hdir⟩)
            obtain ⟨s, rfl⟩ := walk_looked hw
            obtain ⟨fuel₂, r, hr⟩ := (listScan_returns cap hit.clus { f with sec := s }).mpr hnot
            refine ⟨max fuel fuel₂, r, ?_⟩
            rw [walk_mono (Nat.le_max_left ..) hw]
            dsimp only
            rw [if_neg (by simp [hdir])]
            exact listScan_mono (Nat.le_max_right ..) hr
          · exact ⟨fuel, _, by rw [hw]; simp only [hdir]; rfl⟩

/-- **When directory scans end**, on any disk: unless they come back to a cluster with
nothing on the way to stop at. -/
theorem scans_end (f : Vol) :
    (∀ abs isdir size, (∃ fuel r, walk fuel abs isdir size f = some r) ↔ ∀ c v,
      Looks f.toGeo f.disk f.rootClus (comps abs) c v → ¬ WalkLoops f.toGeo f.disk v c) ∧
    (∀ c name83, (∃ fuel r, lookup fuel c name83 f = some r) ↔
      ¬ Loops (lookupBody name83) f.toGeo f.disk c) ∧
    (∀ c, (∃ fuel r, dirSlot fuel c f = some r) ↔ ¬ Loops slotBody f.toGeo f.disk c) ∧
    ∀ path cap, (∃ fuel r, fatList fuel path cap f = some r) ↔
      (path ≠ [] → ∀ abs, abspath f.cwdPath path = some abs → ∀ c v,
        Looks f.toGeo f.disk f.rootClus (comps abs) c v → ¬ WalkLoops f.toGeo f.disk v c) ∧
      ∀ c, ListsAt f path c → ¬ ListLoops f.toGeo f.disk cap c := by
  refine ⟨fun abs isdir size => walk_returns abs isdir size f, fun c name83 => ?_, fun c => ?_,
    fun path cap => fatList_returns path cap f⟩
  · rw [← search_returns none (lookupBody name83) c 0 f]
    constructor
    · intro hx
      obtain ⟨fuel, r, h⟩ := hx
      unfold lookup at h
      split at h
      next => exact absurd h (by simp)
      next hs => exact ⟨fuel, _, hs⟩
      next hs => exact ⟨fuel, _, hs⟩
    · intro h
      obtain ⟨fuel, ⟨res, f₁⟩, hs⟩ := h
      refine ⟨fuel, ?_⟩
      rw [lookup, hs]
      cases res with
      | error r => exact ⟨_, rfl⟩
      | ok b => exact ⟨_, rfl⟩
  · rw [← search_returns none slotBody c 0 f]
    constructor
    · intro hx
      obtain ⟨fuel, r, h⟩ := hx
      unfold dirSlot at h
      split at h
      next => exact absurd h (by simp)
      next hs => exact ⟨fuel, _, hs⟩
      next hs => exact ⟨fuel, _, hs⟩
    · intro h
      obtain ⟨fuel, ⟨res, f₁⟩, hs⟩ := h
      refine ⟨fuel, ?_⟩
      rw [dirSlot, hs]
      cases res with
      | error r => exact ⟨_, rfl⟩
      | ok b =>
        dsimp only
        split
        · exact ⟨_, rfl⟩
        · exact ⟨_, rfl⟩

/-! ## A directory that links to itself -/

/-- A full root directory in cluster 2, all of whose entries are volume labels, and
whose table entry is 2. -/
def selfLinked : Disk where
  drive := Drive.ofSize 140
  data := fun l =>
    if l = 1 then bootSector 1 1 1 2
    else if l = 2 then wr32 (fun _ => 0) 8 2
    else fun i => if i % 32 = 11 then attrVol else 88
  log := []

/-- The volume before it is mounted. -/
def blankVol : Vol where
  fatStart := 0
  dataStart := 0
  secPerClus := 0
  numFats := 0
  fatSz := 0
  rootClus := 0
  disk := selfLinked
  sec := fun _ => 0
  cwdClus := 0
  cwdPath := []
  isMounted := false
  allocHint := 2

/-- **A lookup that never returns**: `/A` on a volume that mounts. -/
theorem walk_endless : ¬ ∀ part f₀ f, fatMount part f₀ = (true, f) →
    ∀ abs isdir size, ∃ fuel r, walk fuel abs isdir size f = some r := by
  intro h
  have hm : fatMount 1 blankVol = (true, (fatMount 1 blankVol).2) :=
    Prod.ext (by decide +kernel) rfl
  have hret := (walk_returns _ _ _ _).mp (h 1 blankVol _ hm [slash, 65] false 0)
  have hc : comps [slash, 65] = [[65]] := by decide
  rw [hc] at hret
  refine hret _ [65] ⟨[], [], rfl, by decide, rfl⟩ ⟨0, 1, by decide, ?_, ?_⟩
  · decide +kernel
  · intro k hk
    rw [Nat.lt_one_iff.mp hk]
    refine ⟨by decide +kernel, ?_⟩
    unfold Passes
    decide +kernel

end InaneOS.Fat
