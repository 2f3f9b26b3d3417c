import InaneOS.Fat.Endless

/-!
# What a listing has stored

`fatList` gives the text of a listing that succeeds. A sector that cannot be read ends
`fat_list` with `-1`, and what it has stored by then stays in the caller's buffer:
`listOut` is what stands there in either case. It never exceeds `cap`, and is the
listing when there is one.
-/

namespace InaneOS.Fat

/-- The sectors of one cluster: whether the scan goes on, and what is stored by then. -/
def listClus (cap : Nat) : Nat → Nat → Str → Vol → Bool × Str × Vol
  | 0, _, out, f => (true, out, f)
  | n + 1, l, out, f =>
    match ideRead l f with
    | none => (false, out, f)
    | some f =>
      match scanSec (listBody cap) l f.sec out with
      | .error r => (false, r.getD out, f)
      | .ok out => listClus cap n (l + 1) out f

def listChain (cap : Nat) : Nat → Nat → Str → Vol → Str
  | 0, _, out, _ => out
  | fuel + 1, c, out, f =>
    if c < eoc then
      match listClus cap f.secPerClus (clusLba c f.toGeo) out f with
      | (false, out, _) => out
      | (true, out, f) =>
        let (c', f) := fatNext c f
        listChain cap fuel c' out f
    else out

/-- What `fat_list(path, out, cap)` has stored in `out` when it returns. -/
def listOut (fuel : Nat) (path : Str) (cap : Nat) (f : Vol) : Str :=
  match abspath f.cwdPath path with
  | none => []
  | some abs =>
    if path = [] then listChain cap fuel f.cwdClus [] f
    else
      match walk fuel abs false 0 f with
      | some (some h, f) => if !h.isdir then [] else listChain cap fuel h.clus [] f
      | _ => []

/-! ## It never exceeds `cap` -/

/-- What the entries have brought together, whether or not the scan ends there. -/
def WithinCap (cap : Nat) : Except (Option Str) Str → Prop
  | .ok out => out.length ≤ cap
  | .error r => ∃ out, r = some out ∧ out.length ≤ cap

theorem listBody_fits {cap : Nat} {out : Str} (h : out.length ≤ cap) (l o : Nat) (s : Sector) :
    WithinCap cap (listBody cap out l o s) := by
  unfold listBody
  dsimp only
  split
  · exact ⟨out, rfl, h⟩
  · split
    · exact h
    · next nm _ =>
      split
      · exact ⟨out, rfl, h⟩
      · next hroom =>
        show (out ++ nm ++ (if entIsDir (entryAt s o) then [slash] else []) ++ [10]).length ≤ cap
        split <;> simp only [List.length_append, List.length_singleton, List.length_nil] <;> omega

theorem scanSec_fits {cap : Nat} (l : Nat) (s : Sector) {out : Str} (h : out.length ≤ cap) :
    WithinCap cap (scanSec (listBody cap) l s out) := by
  unfold scanSec
  generalize List.range 16 = is
  induction is generalizing out with
  | nil => exact h
  | cons i is ih =>
    rw [List.foldlM_cons]
    have hone := listBody_fits h l (i * 32) s
    cases hb : listBody cap out l (i * 32) s with
    | error r =>
      rw [hb] at hone
      exact hone
    | ok out' =>
      rw [hb] at hone
      exact ih hone

theorem listClus_le {cap : Nat} : ∀ (n l : Nat) {out : Str} (f : Vol), out.length ≤ cap →
    (listClus cap n l out f).2.1.length ≤ cap
  | 0, _, _, _, h => h
  | n + 1, l, out, f, h => by
    rw [listClus]
    split
    · exact h
    · next f' _ =>
      have hsec := scanSec_fits l f'.sec h
      split
      · next r hr =>
        rw [hr] at hsec
        obtain ⟨o, rfl, ho⟩ := hsec
        exact ho
      · next o ho =>
        rw [ho] at hsec
        exact listClus_le n (l + 1) f' hsec

theorem listChain_le {cap : Nat} : ∀ (fuel c : Nat) {out : Str} (f : Vol), out.length ≤ cap →
    (listChain cap fuel c out f).length ≤ cap
  | 0, _, _, _, h => h
  | fuel + 1, c, out, f, h => by
    have hclus := listClus_le f.secPerClus (clusLba c f.toGeo) f h
    rw [listChain]
    split
    · split
      · next o _ hl =>
        rw [hl] at hclus
        exact hclus
      · next o f' hl =>
        rw [hl] at hclus
        exact listChain_le fuel _ _ hclus
    · exact h

theorem listOut_le (fuel : Nat) (path : Str) (cap : Nat) (f : Vol) :
    (listOut fuel path cap f).length ≤ cap := by
  unfold listOut
  split
  · exact Nat.zero_le _
  · split
    · exact listChain_le fuel _ f (Nat.zero_le _)
    · split
      · split
        · exact Nat.zero_le _
        · exact listChain_le fuel _ _ (Nat.zero_le _)
      · exact Nat.zero_le _

/-! ## It is the listing -/

theorem listClus_scan {cap : Nat} : ∀ (n l : Nat) {out : Str} (f : Vol), out.length ≤ cap →
    match scanClus none (listBody cap) n l out f with
    | (.ok out', f') => listClus cap n l out f = (true, out', f')
    | (.error (some out'), _) => (listClus cap n l out f).1 = false ∧
        (listClus cap n l out f).2.1 = out'
    | (.error none, _) => (listClus cap n l out f).1 = false
  | 0, _, _, _, _ => rfl
  | n + 1, l, out, f, h => by
    rw [scanClus, listClus]
    cases hread : ideRead l f with
    | none => exact rfl
    | some f' =>
      dsimp only
      have hsec := scanSec_fits l f'.sec h
      cases hs : scanSec (listBody cap) l f'.sec out with
      | error r =>
        rw [hs] at hsec
        obtain ⟨o, rfl, -⟩ := hsec
        exact ⟨rfl, rfl⟩
      | ok o =>
        rw [hs] at hsec
        exact listClus_scan n (l + 1) f' hsec

theorem listChain_scan {cap : Nat} : ∀ (fuel c prev : Nat) {out : Str} (f : Vol), out.length ≤ cap →
    (∀ out' f', scanDir none (listBody cap) fuel c prev out f = some (.error (some out'), f') →
      listChain cap fuel c out f = out') ∧
    ∀ out' p f', scanDir none (listBody cap) fuel c prev out f = some (.ok (out', p), f') →
      listChain cap fuel c out f = out'
  | 0, _, _, _, _, _ => ⟨fun _ _ h => absurd h (by simp [scanDir]),
      fun _ _ _ h => absurd h (by simp [scanDir])⟩
  | fuel + 1, c, prev, out, f, h => by
    rw [scanDir, listChain]
    by_cases hc : c < eoc
    · rw [if_pos hc, if_pos hc]
      have hscan := listClus_scan f.secPerClus (clusLba c f.toGeo) f h
      have hle := listClus_le f.secPerClus (clusLba c f.toGeo) f h
      rcases hl : listClus cap f.secPerClus (clusLba c f.toGeo) out f with ⟨go, o, f₁⟩
      rcases hs : scanClus none (listBody cap) f.secPerClus (clusLba c f.toGeo) out f with
        ⟨(_ | o') | o', f₂⟩
      · exact ⟨fun _ _ hr => absurd hr (by simp), fun _ _ _ hr => absurd hr (by simp)⟩
      · rw [hs, hl] at hscan
        obtain ⟨rfl, rfl⟩ := hscan
        exact ⟨fun _ _ hr => by simpa using congrArg (Option.map Prod.fst) hr,
          fun _ _ _ hr => absurd hr (by simp)⟩
      · rw [hs, hl] at hscan
        rw [hl] at hle
        obtain ⟨rfl, rfl, rfl⟩ := hscan
        exact listChain_scan fuel _ c _ hle
    · rw [if_neg hc, if_neg hc]
      refine ⟨fun _ _ hr => absurd hr (by simp), fun o p f' hr => ?_⟩
      simp only [Option.some.injEq, Prod.mk.injEq, Except.ok.injEq] at hr
      exact hr.1.1

/-- **A listing that succeeds** is what it has stored. -/
theorem listOut_eq {fuel : Nat} {path : Str} {cap : Nat} {f f' : Vol} {out : Str}
    (h : fatList fuel path cap f = some (some out, f')) : listOut fuel path cap f = out := by
  have hscan : ∀ {c : Nat} {g : Vol}, listScan fuel cap c g = some (some out, f') →
      listChain cap fuel c [] g = out := by
    intro c g hr
    unfold listScan at hr
    obtain ⟨herr, hok⟩ :=
      listChain_scan fuel c 0 g (show ([] : Str).length ≤ cap from Nat.zero_le cap)
    rcases hs : scanDir none (listBody cap) fuel c 0 [] g with _ | ⟨r | ⟨o, p⟩, g'⟩
    · rw [hs] at hr
      exact absurd hr (by simp)
    · rw [hs] at hr
      obtain ⟨rfl, -⟩ := Prod.mk.inj (Option.some.inj hr)
      exact herr _ _ hs
    · rw [hs] at hr
      obtain ⟨ho, -⟩ := Prod.mk.inj (Option.some.inj hr)
      exact (hok _ _ _ hs).trans (Option.some.inj ho)
  rw [fatList_eq] at h
  unfold listOut
  cases habs : abspath f.cwdPath path with
  | none =>
    rw [habs] at h
    exact absurd h (by simp)
  | some abs =>
    rw [habs] at h
    dsimp only at h ⊢
    by_cases hp : path = []
    · rw [if_pos hp] at h ⊢
      exact hscan h
    · rw [if_neg hp] at h ⊢
      split at h
      · exact absurd h (by simp)
      · exact absurd h (by simp)
      · next hw =>
        rw [hw]
        dsimp only
        split at h
        · exact absurd h (by simp)
        · next hd =>
          rw [if_neg hd]
          exact hscan h

end InaneOS.Fat
