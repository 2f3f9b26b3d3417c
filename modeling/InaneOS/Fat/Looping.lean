import InaneOS.Fat.Calls
import InaneOS.Lib.Orbit

/-!
# Scans of any disk

Reading changes no sector, so what a scan sees is fixed by the disk: the clusters
`next^[n] c` and what the loop body makes of each (`gathered`). A scan ends when the
chain does, or at a cluster that stops it (`scanDir_returns`).

Cluster numbers below the end mark are finitely many, so a search that does not end
comes back to a cluster (`Lib.Orbit`), and the disk shows it: a lead-in and a cycle
with nothing on them to stop at (`Loops`, `search_returns`).
-/

namespace InaneOS.Fat

open InaneOS.Lib

/-! ## What a scan sees -/

/-- The successor `fat_next` gives; a table sector that cannot be read ends the
chain. -/
def nextOf (g : Geo) (d : Disk) (c : Nat) : Nat :=
  if d.drive.reads (g.fatStart + c * 4 / 512) then
    rd32 (d.data (g.fatStart + c * 4 / 512)) (c * 4 % 512) &&& 0x0FFFFFFF
  else eoc

theorem fatNext_fst (c : Nat) (f : Vol) : (fatNext c f).1 = nextOf f.toGeo f.disk c := by
  unfold fatNext nextOf ideRead
  dsimp only
  by_cases h : f.disk.drive.reads (f.fatStart + c * 4 / 512)
  · rw [if_pos h, if_pos h]
  · rw [if_neg h, if_neg h]

section Scan

variable {α σ : Type} (fail : α) (body : σ → Nat → Nat → Sector → Except α σ)

/-- `n` sectors of a disk from sector `l` on. -/
def clusRun (d : Disk) : Nat → Nat → σ → Except α σ
  | 0, _, a => .ok a
  | n + 1, l, a =>
    if d.drive.reads l then
      match scanSec body l (d.data l) a with
      | .error r => .error r
      | .ok a => clusRun d n (l + 1) a
    else .error fail

theorem scanClus_fst : ∀ (n l : Nat) (a : σ) (f : Vol),
    (scanClus fail body n l a f).1 = clusRun fail body f.disk n l a
  | 0, _, _, _ => rfl
  | n + 1, l, a, f => by
    rw [scanClus, clusRun, ideRead]
    by_cases h : f.disk.drive.reads l
    · rw [if_pos h, if_pos h]
      dsimp only
      cases scanSec body l (f.disk.data l) a with
      | error r => rfl
      | ok b => exact scanClus_fst n (l + 1) b _
    · rw [if_neg h, if_neg h]

/-- The sectors of cluster `c`. -/
def clusOf (g : Geo) (d : Disk) (c : Nat) (a : σ) : Except α σ :=
  clusRun fail body d g.secPerClus (clusLba c g) a

/-- The first `n` clusters from `c` on. -/
def gathered (g : Geo) (d : Disk) : Nat → Nat → σ → Except α σ
  | 0, _, a => .ok a
  | n + 1, c, a =>
    match clusOf fail body g d c a with
    | .error r => .error r
    | .ok a => gathered g d n (nextOf g d c) a

/-- The next cluster is added behind what was gathered. -/
theorem gathered_succ (g : Geo) (d : Disk) : ∀ (n c : Nat) (a b : σ),
    gathered fail body g d n c a = .ok b →
    gathered fail body g d (n + 1) c a = clusOf fail body g d ((nextOf g d)^[n] c) b
  | 0, c, a, b, h => by
    rw [gathered] at h
    rw [gathered, Except.ok.inj h, Function.iterate_zero_apply]
    cases clusOf fail body g d c b with
    | error r => rfl
    | ok b' => rfl
  | n + 1, c, a, b, h => by
    rw [gathered] at h ⊢
    cases hc : clusOf fail body g d c a with
    | error r =>
      rw [hc] at h
      exact absurd h (by simp)
    | ok a' =>
      rw [hc] at h
      exact gathered_succ g d n _ a' b h

/-- What stopped the scan of `n` clusters stops the scan of more. -/
theorem gathered_stays (g : Geo) (d : Disk) {r : α} : ∀ (n k c : Nat) (a : σ),
    gathered fail body g d n c a = .error r → gathered fail body g d (n + k) c a = .error r
  | 0, _, _, _, h => absurd h (by simp [gathered])
  | n + 1, k, c, a, h => by
    rw [Nat.add_right_comm, gathered]
    rw [gathered] at h
    cases hc : clusOf fail body g d c a with
    | error r' =>
      rw [hc] at h
      exact h
    | ok b =>
      rw [hc] at h
      exact gathered_stays g d n k _ b h

/-- So a scan that was not stopped was not stopped before. -/
theorem gathered_before (g : Geo) (d : Disk) {n m c : Nat} {a b : σ} (hnm : n ≤ m)
    (h : gathered fail body g d m c a = .ok b) : ∃ b', gathered fail body g d n c a = .ok b' := by
  cases hn : gathered fail body g d n c a with
  | ok b' => exact ⟨b', rfl⟩
  | error r =>
    have hm := gathered_stays fail body g d n (m - n) c a hn
    rw [show n + (m - n) = m by omega, h] at hm
    exact absurd hm (by simp)

/-- One round of the loop. -/
theorem scanDir_round (c prev : Nat) (a : σ) (f : Vol) : ∃ f₁ f₂, Looked f f₁ ∧ Looked f f₂ ∧
    ∀ fuel, scanDir fail body (fuel + 1) c prev a f =
      if c < eoc then
        match clusOf fail body f.toGeo f.disk c a with
        | .error r => some (.error r, f₁)
        | .ok b => scanDir fail body fuel (nextOf f.toGeo f.disk c) c b f₂
      else some (.ok (a, prev), f) := by
  have hl := scanClus_looked fail body f.secPerClus (clusLba c f.toGeo) a f
  have hv := scanClus_fst fail body f.secPerClus (clusLba c f.toGeo) a f
  rcases hs : scanClus fail body f.secPerClus (clusLba c f.toGeo) a f with ⟨res, f₁⟩
  rw [hs] at hl hv
  obtain ⟨s, rfl⟩ : Looked f f₁ := hl
  have hn := fatNext_looked c { f with sec := s }
  have hnv := fatNext_fst c { f with sec := s }
  rcases hf : fatNext c { f with sec := s } with ⟨c', f₂⟩
  rw [hf] at hn hnv
  refine ⟨_, f₂, ⟨s, rfl⟩, Looked.trans ⟨s, rfl⟩ hn, fun fuel => ?_⟩
  have hres : clusOf fail body f.toGeo f.disk c a = res := hv.symm
  have hc' : nextOf f.toGeo f.disk c = c' := hnv.symm
  rw [scanDir, hs, hres, hc']
  cases res with
  | error r => rfl
  | ok b =>
    dsimp only
    rw [hf]

/-- A scan of more rounds gives the same. -/
theorem scanDir_mono : ∀ {fuel fuel' c prev : Nat} {a : σ} {f : Vol}
    {x : Except α (σ × Nat) × Vol}, fuel ≤ fuel' → scanDir fail body fuel c prev a f = some x →
    scanDir fail body fuel' c prev a f = some x
  | 0, _, _, _, _, _, _, _, h => by
    rw [scanDir] at h
    exact absurd h (by simp)
  | fuel + 1, 0, _, _, _, _, _, hle, _ => absurd hle (by omega)
  | fuel + 1, fuel' + 1, c, prev, a, f, x, hle, h => by
    obtain ⟨f₁, f₂, -, -, hround⟩ := scanDir_round fail body c prev a f
    rw [hround] at h ⊢
    split at h
    next hc =>
      rw [if_pos hc]
      cases hcl : clusOf fail body f.toGeo f.disk c a with
      | error r =>
        rw [hcl] at h
        exact h
      | ok b =>
        rw [hcl] at h
        exact scanDir_mono (Nat.le_of_succ_le_succ hle) h
    next hc =>
      rw [if_neg hc]
      exact h

/-- **A scan returns** exactly when the chain ends or a cluster on it stops it. -/
theorem scanDir_returns (c prev : Nat) (a : σ) (f : Vol) :
    (∃ fuel x, scanDir fail body fuel c prev a f = some x) ↔
      ∃ n, eoc ≤ (nextOf f.toGeo f.disk)^[n] c ∨
        ∃ r, gathered fail body f.toGeo f.disk n c a = .error r := by
  constructor
  · intro hx
    obtain ⟨fuel, x, h⟩ := hx
    induction fuel generalizing c prev a f with
    | zero =>
      rw [scanDir] at h
      exact absurd h (by simp)
    | succ fuel ih =>
      obtain ⟨f₁, f₂, -, ⟨s, rfl⟩, hround⟩ := scanDir_round fail body c prev a f
      rw [hround] at h
      by_cases hc : c < eoc
      · rw [if_pos hc] at h
        cases hcl : clusOf fail body f.toGeo f.disk c a with
        | error r => exact ⟨1, Or.inr ⟨r, by rw [gathered, hcl]⟩⟩
        | ok b =>
          rw [hcl] at h
          obtain ⟨n, hn | ⟨r, hr⟩⟩ := ih _ _ _ _ h
          · exact ⟨n + 1, Or.inl hn⟩
          · exact ⟨n + 1, Or.inr ⟨r, by rw [gathered, hcl]; exact hr⟩⟩
      · exact ⟨0, Or.inl (Nat.le_of_not_lt hc)⟩
  · intro hx
    obtain ⟨n, h⟩ := hx
    induction n generalizing c prev a f with
    | zero =>
      rcases h with h | ⟨r, h⟩
      · rw [Function.iterate_zero_apply] at h
        exact ⟨1, _, by rw [scanDir, if_neg (by omega)]⟩
      · exact absurd h (by simp [gathered])
    | succ n ih =>
      obtain ⟨f₁, f₂, -, ⟨s, rfl⟩, hround⟩ := scanDir_round fail body c prev a f
      by_cases hc : c < eoc
      · cases hcl : clusOf fail body f.toGeo f.disk c a with
        | error r => exact ⟨1, _, by rw [hround, if_pos hc, hcl]⟩
        | ok b =>
          have hrest : ∃ fuel x, scanDir fail body fuel (nextOf f.toGeo f.disk c) c b
              { f with sec := s } = some x := by
            refine ih _ _ _ _ ?_
            rcases h with h | ⟨r, h⟩
            · exact Or.inl h
            · rw [gathered, hcl] at h
              exact Or.inr ⟨r, h⟩
          obtain ⟨fuel, x, hx⟩ := hrest
          exact ⟨fuel + 1, x, by rw [hround, if_pos hc, hcl]; exact hx⟩
      · exact ⟨1, _, by rw [hround, if_neg hc]⟩

/-- What a scan returns when it is stopped. -/
theorem scanDir_stopped {n c prev : Nat} {a : σ} {f : Vol} {r : α}
    (hlt : ∀ k < n, (nextOf f.toGeo f.disk)^[k] c < eoc)
    (h : gathered fail body f.toGeo f.disk n c a = .error r) {fuel : Nat}
    {x : Except α (σ × Nat) × Vol} (hx : scanDir fail body fuel c prev a f = some x) :
    x.1 = .error r := by
  induction n generalizing fuel c prev a f with
  | zero => exact absurd h (by simp [gathered])
  | succ n ih =>
    cases fuel with
    | zero =>
      rw [scanDir] at hx
      exact absurd hx (by simp)
    | succ fuel =>
      obtain ⟨f₁, f₂, -, ⟨s, rfl⟩, hround⟩ := scanDir_round fail body c prev a f
      have hc : c < eoc := hlt 0 (by omega)
      rw [hround, if_pos hc] at hx
      rw [gathered] at h
      cases hcl : clusOf fail body f.toGeo f.disk c a with
      | error r' =>
        rw [hcl] at h hx
        rw [← Option.some.inj hx, Except.error.inj h]
      | ok b =>
        rw [hcl] at h hx
        exact ih (f := { f with sec := s }) (fun k hk => hlt (k + 1) (by omega)) h hx

/-- A scan that was stopped was stopped by what it had gathered. -/
theorem gathered_of_stopped {fuel c prev : Nat} {a : σ} {f f' : Vol} {r : α}
    (hx : scanDir fail body fuel c prev a f = some (.error r, f')) :
    ∃ n, (∀ k < n, (nextOf f.toGeo f.disk)^[k] c < eoc) ∧
      gathered fail body f.toGeo f.disk n c a = .error r := by
  induction fuel generalizing c prev a f with
  | zero =>
    rw [scanDir] at hx
    exact absurd hx (by simp)
  | succ fuel ih =>
    obtain ⟨f₁, f₂, -, ⟨s, rfl⟩, hround⟩ := scanDir_round fail body c prev a f
    rw [hround] at hx
    split at hx
    next hc =>
      cases hcl : clusOf fail body f.toGeo f.disk c a with
      | error r' =>
        rw [hcl] at hx
        refine ⟨1, fun k hk => ?_, ?_⟩
        · rw [Nat.lt_one_iff.mp hk]
          exact hc
        · rw [gathered, hcl]
          exact congrArg Except.error (Except.error.inj (Prod.mk.inj (Option.some.inj hx)).1)
      | ok b =>
        rw [hcl] at hx
        obtain ⟨n, hlt, hn⟩ := ih (f := { f with sec := s }) hx
        refine ⟨n + 1, fun k hk => ?_, ?_⟩
        · cases k with
          | zero => exact hc
          | succ k => exact hlt k (by omega)
        · rw [gathered, hcl]
          exact hn
    next => exact absurd (Prod.mk.inj (Option.some.inj hx)).1 (by simp)

/-- A body that reports differently gathers the same and reports differently. -/
theorem gathered_map {β : Type} {φ : α → β} {fail' : β}
    {body' : σ → Nat → Nat → Sector → Except β σ}
    (hf : fail' = φ fail) (hb : ∀ a l o s, body' a l o s = (body a l o s).mapError φ) (g : Geo)
    (d : Disk) : ∀ (n c : Nat) (a : σ),
    gathered fail' body' g d n c a = (gathered fail body g d n c a).mapError φ := by
  have hfold : ∀ (is : List Nat) (l : Nat) (s : Sector) (a : σ),
      is.foldlM (fun a i => body' a l (i * 32) s) a =
        (is.foldlM (fun a i => body a l (i * 32) s) a).mapError φ := by
    intro is l s
    induction is with
    | nil =>
      intro a
      rfl
    | cons i is ih =>
      intro a
      rw [List.foldlM_cons, List.foldlM_cons, hb]
      cases body a l (i * 32) s with
      | error r => rfl
      | ok b => exact ih b
  have hrun : ∀ (n l : Nat) (a : σ),
      clusRun fail' body' d n l a = (clusRun fail body d n l a).mapError φ := by
    intro n
    induction n with
    | zero =>
      intro l a
      rfl
    | succ n ih =>
      intro l a
      rw [clusRun, clusRun, scanSec, scanSec, hfold]
      by_cases hl : d.drive.reads l
      · rw [if_pos hl, if_pos hl]
        cases (List.range 16).foldlM (fun a i => body a l (i * 32) (d.data l)) a with
        | error r => rfl
        | ok b => exact ih (l + 1) b
      · rw [if_neg hl, if_neg hl, hf]
        rfl
  intro n
  induction n with
  | zero =>
    intro c a
    rfl
  | succ n ih =>
    intro c a
    rw [gathered, gathered, clusOf, hrun, clusOf]
    cases clusRun fail body d g.secPerClus (clusLba c g) a with
    | error r => rfl
    | ok b => exact ih (nextOf g d c) b

end Scan

/-! ## A search that does not end -/

section Search

variable {α : Type} (fail : α) (body : Unit → Nat → Nat → Sector → Except α Unit)

/-- Nothing in cluster `c` stops the loop: its sectors can be read, and the body
goes on at each of their entries. -/
def Passes (g : Geo) (d : Disk) (c : Nat) : Prop :=
  ∀ s < g.secPerClus, d.drive.reads (clusLba c g + s) ∧
    ∀ i < 16, body () (clusLba c g + s) (i * 32) (d.data (clusLba c g + s)) = .ok ()

theorem foldlM_unit_ok {β : Type} {step : Unit → β → Except α Unit} : ∀ {l : List β},
    l.foldlM step () = .ok () ↔ ∀ x ∈ l, step () x = .ok ()
  | [] => by simp [pure, Except.pure]
  | x :: l => by
    rw [List.foldlM_cons, List.forall_mem_cons]
    cases hx : step () x with
    | error r => exact iff_of_false (by simp [bind, Except.bind]) (by simp)
    | ok b =>
      refine Iff.trans ?_ (and_iff_right rfl).symm
      exact foldlM_unit_ok

theorem clusRun_unit (d : Disk) : ∀ (n l : Nat), clusRun fail body d n l () = .ok () ↔
    ∀ s < n, d.drive.reads (l + s) ∧ ∀ i < 16, body () (l + s) (i * 32) (d.data (l + s)) = .ok ()
  | 0, l => iff_of_true rfl (by simp)
  | n + 1, l => by
    rw [clusRun]
    have hsec : scanSec body l (d.data l) () = .ok () ↔
        ∀ i < 16, body () l (i * 32) (d.data l) = .ok () := by
      rw [scanSec, foldlM_unit_ok]
      simp
    have hsplit : (∀ s < n + 1, d.drive.reads (l + s) ∧
        ∀ i < 16, body () (l + s) (i * 32) (d.data (l + s)) = .ok ()) ↔
        (d.drive.reads l ∧ ∀ i < 16, body () l (i * 32) (d.data l) = .ok ()) ∧
        ∀ s < n, d.drive.reads (l + 1 + s) ∧
          ∀ i < 16, body () (l + 1 + s) (i * 32) (d.data (l + 1 + s)) = .ok () := by
      rw [Nat.forall_lt_succ_left]
      simp only [Nat.add_zero, Nat.add_assoc, Nat.add_comm 1]
    rw [hsplit, ← hsec, ← clusRun_unit d n (l + 1)]
    by_cases hl : d.drive.reads l
    · rw [if_pos hl]
      cases scanSec body l (d.data l) () with
      | error r => simp
      | ok b => simp [hl]
    · rw [if_neg hl]
      simp [hl]

theorem clusOf_unit (g : Geo) (d : Disk) (c : Nat) :
    clusOf fail body g d c () = .ok () ↔ Passes body g d c :=
  clusRun_unit fail body d g.secPerClus (clusLba c g)

theorem gathered_unit (g : Geo) (d : Disk) : ∀ (n c : Nat),
    gathered fail body g d n c () = .ok () ↔ ∀ k < n, Passes body g d ((nextOf g d)^[k] c)
  | 0, c => iff_of_true rfl (by simp)
  | n + 1, c => by
    rw [gathered, Nat.forall_lt_succ_left, Function.iterate_zero_apply,
      ← clusOf_unit fail body g d c]
    simp only [Function.iterate_succ_apply]
    rw [← gathered_unit g d n]
    cases clusOf fail body g d c () with
    | error r => simp
    | ok b => simp

/-- The chain from `c` comes back to a cluster, and nothing on it stops the loop. -/
def Loops (g : Geo) (d : Disk) (c : Nat) : Prop :=
  ∃ i j, i < j ∧ (nextOf g d)^[i] c = (nextOf g d)^[j] c ∧
    ∀ k < j, (nextOf g d)^[k] c < eoc ∧ Passes body g d ((nextOf g d)^[k] c)

/-- **A search returns** unless it loops. -/
theorem search_returns (c prev : Nat) (f : Vol) :
    (∃ fuel x, scanDir fail body fuel c prev () f = some x) ↔ ¬ Loops body f.toGeo f.disk c := by
  rw [scanDir_returns, Loops, ← orbit_forever_iff, not_forall]
  constructor
  · intro h
    obtain ⟨n, hn | ⟨r, hr⟩⟩ := h
    · exact ⟨n, fun h => absurd h.1 (by omega)⟩
    · by_contra hno
      rw [not_exists] at hno
      have hall := (gathered_unit fail body f.toGeo f.disk n c).mpr
        fun k _ => (not_not.mp (hno k)).2
      rw [hall] at hr
      exact absurd hr (by simp)
  · intro h
    obtain ⟨n, hn⟩ := h
    by_cases hlt : (nextOf f.toGeo f.disk)^[n] c < eoc
    · refine ⟨n + 1, Or.inr ?_⟩
      cases hg : gathered fail body f.toGeo f.disk (n + 1) c () with
      | error r => exact ⟨r, rfl⟩
      | ok b =>
        have hall := (gathered_unit fail body f.toGeo f.disk (n + 1) c).mp hg
        exact absurd ⟨hlt, hall n (by omega)⟩ hn
    · exact ⟨n, Or.inl (Nat.le_of_not_lt hlt)⟩

end Search

end InaneOS.Fat
