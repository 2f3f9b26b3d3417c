import InaneOS.Fat.Endless
import InaneOS.Fat.ListOut
import InaneOS.Fat.Write

/-!
# More rounds change nothing

The loops that follow chains carry the number of rounds they are allowed. A call that
comes back within them comes back with the same result when it is allowed more, so the
number is no input of the call: it only says how long one is willing to wait.
-/

namespace InaneOS.Fat

open InaneOS.Lib

variable {fuel fuel' : Nat} (hle : fuel ≤ fuel')

include hle

theorem fatChdir_mono {path : Str} {f : Vol} {x : Bool × Vol}
    (hx : fatChdir fuel path f = some x) : fatChdir fuel' path f = some x := by
  unfold fatChdir at hx ⊢
  split at hx
  next => exact hx
  next =>
    split at hx
    next => exact absurd hx (by simp)
    next hw => rw [walk_mono hle hw]; exact hx
    next hw => rw [walk_mono hle hw]; exact hx

theorem fatList_mono {path : Str} {cap : Nat} {f : Vol} {x : Option Str × Vol}
    (hx : fatList fuel path cap f = some x) : fatList fuel' path cap f = some x := by
  rw [fatList_eq] at hx ⊢
  split at hx
  next => exact hx
  next =>
    split at hx
    next hp =>
      rw [if_pos hp]
      exact listScan_mono hle hx
    next hp =>
      rw [if_neg hp]
      split at hx
      next => exact absurd hx (by simp)
      next hw => rw [walk_mono hle hw]; exact hx
      next hw =>
        rw [walk_mono hle hw]
        dsimp only
        split at hx
        next hd =>
          rw [if_pos hd]
          exact hx
        next hd =>
          rw [if_neg hd]
          exact listScan_mono hle hx

omit hle in
/-- A listing that comes back has stored the same. -/
theorem listChain_mono {cap : Nat} : ∀ {fuel fuel' c prev : Nat} {out : Str} {f : Vol}
    {x : Except (Option Str) (Str × Nat) × Vol}, fuel ≤ fuel' → out.length ≤ cap →
    scanDir none (listBody cap) fuel c prev out f = some x →
    listChain cap fuel' c out f = listChain cap fuel c out f
  | 0, _, _, _, _, _, _, _, _, hx => absurd hx (by simp [scanDir])
  | fuel + 1, 0, _, _, _, _, _, hle, _, _ => absurd hle (by omega)
  | fuel + 1, fuel' + 1, c, prev, out, f, x, hle, h, hx => by
    rw [scanDir] at hx
    rw [listChain, listChain]
    by_cases hc : c < eoc
    · rw [if_pos hc] at hx ⊢
      rw [if_pos hc]
      have hscan := listClus_scan f.secPerClus (clusLba c f.toGeo) f h
      have hfit := listClus_le f.secPerClus (clusLba c f.toGeo) f h
      rcases hl : listClus cap f.secPerClus (clusLba c f.toGeo) out f with ⟨_ | _, o, f₁⟩
      · rfl
      · rcases hs : scanClus none (listBody cap) f.secPerClus (clusLba c f.toGeo) out f with
          ⟨(_ | o') | o', f₂⟩
        · rw [hs, hl] at hscan
          exact absurd hscan (by simp)
        · rw [hs, hl] at hscan
          exact absurd hscan.1 (by simp)
        · rw [hs, hl] at hscan
          rw [hs] at hx
          rw [hl] at hfit
          obtain ⟨-, rfl, rfl⟩ := hscan
          exact listChain_mono (Nat.le_of_succ_le_succ hle) hfit hx
    · rw [if_neg hc, if_neg hc]

theorem listOut_mono {path : Str} {cap : Nat} {f : Vol} {x : Option Str × Vol}
    (hx : fatList fuel path cap f = some x) :
    listOut fuel' path cap f = listOut fuel path cap f := by
  have hscan : ∀ {c : Nat} {g : Vol}, listScan fuel cap c g = some x →
      listChain cap fuel' c [] g = listChain cap fuel c [] g := by
    intro c g hr
    obtain ⟨y, hs⟩ := listScan_some.mp ⟨x, hr⟩
    exact listChain_mono hle (Nat.zero_le cap) hs
  rw [fatList_eq] at hx
  unfold listOut
  cases ha : abspath f.cwdPath path with
  | none => rfl
  | some abs =>
    rw [ha] at hx
    dsimp only at hx ⊢
    split at hx
    next hp =>
      rw [if_pos hp, if_pos hp]
      exact hscan hx
    next hp =>
      rw [if_neg hp, if_neg hp]
      split at hx
      next => exact absurd hx (by simp)
      next hw => rw [walk_mono hle hw, hw]
      next hw =>
        rw [walk_mono hle hw, hw]
        dsimp only
        split at hx
        next hd => rw [if_pos hd, if_pos hd]
        next hd =>
          rw [if_neg hd, if_neg hd]
          exact hscan hx

omit hle in
theorem readChain_mono {cap : Nat} : ∀ {fuel fuel' c : Nat} {out : Str} {f : Vol}
    {x : Bool × Str × Vol}, fuel ≤ fuel' → readChain cap fuel c out f = some x →
    readChain cap fuel' c out f = some x
  | 0, _, _, _, _, _, _, hx => absurd hx (by simp [readChain])
  | fuel + 1, 0, _, _, _, _, hle, _ => absurd hle (by omega)
  | fuel + 1, fuel' + 1, c, out, f, x, hle, hx => by
    rw [readChain] at hx ⊢
    split at hx
    next hroom =>
      rw [if_pos hroom]
      split at hx
      next hend =>
        rw [if_pos hend]
        exact hx
      next hend =>
        rw [if_neg hend]
        split at hx
        next => exact hx
        next => exact readChain_mono (Nat.le_of_succ_le_succ hle) hx
    next hroom =>
      rw [if_neg hroom]
      exact hx

theorem fatRead_mono {path : Str} {cap : Nat} {f : Vol} {x : (Option Nat × Str) × Vol}
    (hx : fatRead fuel path cap f = some x) : fatRead fuel' path cap f = some x := by
  unfold fatRead at hx ⊢
  split at hx
  next => exact hx
  next =>
    split at hx
    next => exact absurd hx (by simp)
    next hw => rw [walk_mono hle hw]; exact hx
    next hw =>
      rw [walk_mono hle hw]
      dsimp only
      split at hx
      next hd =>
        rw [if_pos hd]
        exact hx
      next hd =>
        rw [if_neg hd]
        split at hx
        next => exact absurd hx (by simp)
        next hr => rw [readChain_mono hle hr]; exact hx
        next hr => rw [readChain_mono hle hr]; exact hx

theorem lookup_mono {c : Nat} {name83 : Str} {f : Vol} {x : Option Found × Vol}
    (hx : lookup fuel c name83 f = some x) : lookup fuel' c name83 f = some x := by
  unfold lookup at hx ⊢
  split at hx
  next => exact absurd hx (by simp)
  next hs => rw [scanDir_mono none _ hle hs]; exact hx
  next hs => rw [scanDir_mono none _ hle hs]; exact hx

theorem dirSlot_mono {c : Nat} {f : Vol} {x : Option (Nat × Nat) × Vol}
    (hx : dirSlot fuel c f = some x) : dirSlot fuel' c f = some x := by
  unfold dirSlot at hx ⊢
  split at hx
  next => exact absurd hx (by simp)
  next hs => rw [scanDir_mono none _ hle hs]; exact hx
  next hs => rw [scanDir_mono none _ hle hs]; exact hx

omit hle in
theorem freeChain_mono : ∀ {fuel fuel' c : Nat} {f f' : Vol}, fuel ≤ fuel' →
    freeChain fuel c f = some f' → freeChain fuel' c f = some f'
  | 0, _, _, _, _, _, hx => absurd hx (by simp [freeChain])
  | fuel + 1, 0, _, _, _, hle, _ => absurd hle (by omega)
  | fuel + 1, fuel' + 1, c, f, f', hle, hx => by
    rw [freeChain] at hx ⊢
    split at hx
    next hc =>
      rw [if_pos hc]
      exact freeChain_mono (Nat.le_of_succ_le_succ hle) hx
    next hc =>
      rw [if_neg hc]
      exact hx

/-- A chain is freed, and something returned. -/
theorem freeThen_mono {α : Type} {c : Nat} {f : Vol} {a : α} {x : α × Vol}
    (hx : (freeChain fuel c f).map (fun f => (a, f)) = some x) :
    (freeChain fuel' c f).map (fun f => (a, f)) = some x := by
  obtain ⟨f', hf, rfl⟩ := Option.map_eq_some_iff.mp hx
  rw [freeChain_mono hle hf]
  rfl

theorem writeChain_mono : ∀ {k k' : Nat} {left : Str} {newclus tail : Nat} {f : Vol}
    {x : Option Nat × Vol}, k ≤ k' → writeChain fuel k left newclus tail f = some x →
    writeChain fuel' k' left newclus tail f = some x
  | 0, _, _, _, _, _, _, _, hx => absurd hx (by simp [writeChain])
  | k + 1, 0, _, _, _, _, _, hk, _ => absurd hk (by omega)
  | k + 1, k' + 1, left, newclus, tail, f, x, hk, hx => by
    rw [writeChain] at hx ⊢
    split at hx
    next hl =>
      rw [if_pos hl]
      exact hx
    next hl =>
      rw [if_neg hl]
      rcases ha : allocClus f with ⟨c, f₁⟩
      rw [ha] at hx
      dsimp only at hx ⊢
      split at hx
      next h0 =>
        rw [if_pos h0]
        exact freeThen_mono hle hx
      next h0 =>
        rw [if_neg h0]
        split at hx
        next => exact freeThen_mono hle hx
        next =>
          split at hx
          next => exact freeThen_mono hle hx
          next => exact writeChain_mono (Nat.le_of_succ_le_succ hk) hx

theorem switchEntry_mono {lba off newclus len : Nat} {found : Option Found} {name83 : Str} {f : Vol}
    {x : Bool × Vol} (hx : switchEntry fuel found lba off name83 newclus len f = some x) :
    switchEntry fuel' found lba off name83 newclus len f = some x := by
  unfold switchEntry at hx ⊢
  dsimp only at hx ⊢
  split at hx
  next => exact freeThen_mono hle hx
  next =>
    split at hx
    next => exact hx
    next =>
      split at hx
      next hc =>
        rw [if_pos hc]
        exact freeThen_mono hle hx
      next hc =>
        rw [if_neg hc]
        exact hx

theorem storeFile_mono {pclus : Nat} {name83 buf : Str} {found : Option Found} {f : Vol}
    {x : Bool × Vol} (hx : storeFile fuel pclus name83 found buf f = some x) :
    storeFile fuel' pclus name83 found buf f = some x := by
  unfold storeFile at hx ⊢
  split at hx
  next => exact absurd hx (by simp)
  next hc => rw [writeChain_mono hle hle hc]; exact hx
  next hc =>
    rw [writeChain_mono hle hle hc]
    dsimp only
    split at hx
    next fd =>
      split at hx
      next => exact freeThen_mono hle hx
      next => exact switchEntry_mono hle hx
    next =>
      split at hx
      next => exact absurd hx (by simp)
      next hd => rw [dirSlot_mono hle hd]; exact freeThen_mono hle hx
      next hd => rw [dirSlot_mono hle hd]; exact switchEntry_mono hle hx

/-- **A write** that comes back comes back the same with more rounds. -/
theorem fatWrite_mono {path buf : Str} {f : Vol} {x : Bool × Vol}
    (hx : fatWrite fuel path buf f = some x) : fatWrite fuel' path buf f = some x := by
  unfold fatWrite at hx ⊢
  split at hx
  next => exact hx
  next =>
    split at hx
    next => exact hx
    next =>
      dsimp only at hx ⊢
      split at hx
      next hd =>
        rw [if_pos hd]
        exact hx
      next hd =>
        rw [if_neg hd]
        split at hx
        next => exact absurd hx (by simp)
        next hw => rw [walk_mono hle hw]; exact hx
        next hw =>
          rw [walk_mono hle hw]
          dsimp only
          split at hx
          next hi =>
            rw [if_pos hi]
            exact hx
          next hi =>
            rw [if_neg hi]
            split at hx
            next => exact hx
            next =>
              split at hx
              next => exact absurd hx (by simp)
              next hk => rw [lookup_mono hle hk]; exact storeFile_mono hle hx
              next hk =>
                rw [lookup_mono hle hk]
                dsimp only
                split at hx
                next hfd =>
                  rw [if_pos hfd]
                  exact hx
                next hfd =>
                  rw [if_neg hfd]
                  exact storeFile_mono hle hx

end InaneOS.Fat
