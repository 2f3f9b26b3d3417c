import InaneOS.Fat.Table

/-!
# The calls and what they leave alone

A program reaches the volume through `fat_chdir`, `fat_list`, `fat_read` and
`fat_write`; `FatCall` is one such call and `Reached` a sequence of them. None of
the helpers touches the current directory, whatever the disk holds: they read and
write sectors and move the allocation hint (`Looked`, `Moved`). So only `fat_chdir` changes
`cwd_path` and `cwd_clus`, and it sets both (`FatCall.run_cases`).
-/

namespace InaneOS.Fat

open InaneOS.Lib

/-! ## Calls that only read -/

/-- Only the sector buffer may differ. -/
def Looked (f f' : Vol) : Prop := ∃ s, f' = { f with sec := s }

theorem Looked.refl (f : Vol) : Looked f f := ⟨f.sec, rfl⟩

theorem Looked.trans {f f₁ f₂ : Vol} (h : Looked f f₁) (h' : Looked f₁ f₂) : Looked f f₂ := by
  obtain ⟨s, rfl⟩ := h
  obtain ⟨s', rfl⟩ := h'
  exact ⟨s', rfl⟩

/-- The state a call returned with. -/
theorem Looked.ret {α : Type} {f f₁ f' : Vol} {a b : α} (hl : Looked f f₁)
    (h : some (a, f₁) = some (b, f')) : Looked f f' := by
  rw [← (Prod.mk.inj (Option.some.inj h)).2]
  exact hl

theorem ideRead_looked {l : Nat} {f f' : Vol} (h : ideRead l f = some f') : Looked f f' := by
  rw [ideRead] at h
  split at h
  next => exact (Option.some.inj h) ▸ ⟨f.disk.data l, rfl⟩
  next => exact absurd h (by simp)

theorem fatNext_looked (c : Nat) (f : Vol) : Looked f (fatNext c f).2 := by
  unfold fatNext
  dsimp only
  split
  next => exact Looked.refl f
  next h => exact ideRead_looked h

section Scan

variable {α σ : Type} (fail : α) (body : σ → Nat → Nat → Sector → Except α σ)

theorem scanClus_looked : ∀ (n l : Nat) (a : σ) (f : Vol),
    Looked f (scanClus fail body n l a f).2
  | 0, _, _, f => Looked.refl f
  | n + 1, l, a, f => by
    unfold scanClus
    split
    next => exact Looked.refl f
    next h =>
      split
      next => exact ideRead_looked h
      next a' _ => exact (ideRead_looked h).trans (scanClus_looked n (l + 1) a' _)

theorem scanDir_looked : ∀ (fuel c prev : Nat) (a : σ) (f : Vol) {r : Except α (σ × Nat)}
    {f' : Vol},
    scanDir fail body fuel c prev a f = some (r, f') → Looked f f'
  | 0, _, _, _, _, _, _, h => by
    rw [scanDir] at h
    exact absurd h (by simp)
  | fuel + 1, c, prev, a, f, r, f', h => by
    unfold scanDir at h
    have hm := scanClus_looked fail body f.secPerClus (clusLba c f.toGeo) a f
    split at h
    next =>
      split at h
      next f₁ hs =>
        rw [hs] at hm
        exact hm.ret h
      next a₁ f₁ hs =>
        rw [hs] at hm
        exact (hm.trans (fatNext_looked c f₁)).trans (scanDir_looked fuel _ c a₁ _ h)
    next => exact (Looked.refl f).ret h

end Scan

theorem walkLoop_looked (fuel : Nat) : ∀ (k : Nat) (path : Str) (h : Hit) (f : Vol)
    {r : Option Hit} {f' : Vol}, walkLoop fuel k path h f = some (r, f') → Looked f f'
  | 0, _, _, _, _, _, hr => (Looked.refl _).ret hr
  | k + 1, path, h, f, r, f', hr => by
    unfold walkLoop at hr
    dsimp only at hr
    split at hr
    next => exact (Looked.refl _).ret hr
    next =>
      split at hr
      next => exact (Looked.refl _).ret hr
      next =>
        split at hr
        next => exact absurd hr (by simp)
        next hs =>
          exact (scanDir_looked _ _ _ _ _ _ _ hs).ret hr
        next hs =>
          exact (scanDir_looked _ _ _ _ _ _ _ hs).ret hr
        next hs =>
          have hm := scanDir_looked _ _ _ _ _ _ _ hs
          split at hr
          next => exact hm.ret hr
          next => exact hm.trans (walkLoop_looked fuel k _ _ _ hr)

theorem walk_looked {fuel : Nat} {abs : Str} {isdir : Bool} {size : Nat} {f f' : Vol}
    {r : Option Hit} (h : walk fuel abs isdir size f = some (r, f')) : Looked f f' := by
  unfold walk at h
  split at h
  next => exact (Looked.refl _).ret h
  next => exact walkLoop_looked fuel _ _ _ _ h

theorem fatList_looked {fuel : Nat} {path : Str} {cap : Nat} {f f' : Vol} {r : Option Str}
    (h : fatList fuel path cap f = some (r, f')) : Looked f f' := by
  unfold fatList at h
  dsimp only at h
  split at h
  next => exact (Looked.refl _).ret h
  next =>
    split at h
    next =>
      split at h
      next => exact absurd h (by simp)
      next hs => exact (scanDir_looked _ _ _ _ _ _ _ hs).ret h
      next hs => exact (scanDir_looked _ _ _ _ _ _ _ hs).ret h
    next =>
      split at h
      next => exact absurd h (by simp)
      next hw => exact (walk_looked hw).ret h
      next hw =>
        split at h
        next => exact (walk_looked hw).ret h
        next =>
          apply (walk_looked hw).trans
          split at h
          next => exact absurd h (by simp)
          next hs => exact (scanDir_looked _ _ _ _ _ _ _ hs).ret h
          next hs => exact (scanDir_looked _ _ _ _ _ _ _ hs).ret h

theorem readClus_looked (cap : Nat) : ∀ (n l : Nat) (out : Str) (f : Vol),
    Looked f (readClus cap n l out f).2.2
  | 0, _, _, f => Looked.refl f
  | n + 1, l, out, f => by
    unfold readClus
    split
    next =>
      split
      next => exact Looked.refl f
      next h => exact (ideRead_looked h).trans (readClus_looked cap n (l + 1) _ _)
    next => exact Looked.refl f

theorem readChain_looked (cap : Nat) : ∀ (fuel c : Nat) (out : Str) (f : Vol) {b : Bool} {o : Str}
    {f' : Vol}, readChain cap fuel c out f = some (b, o, f') → Looked f f'
  | 0, _, _, _, _, _, _, h => by
    rw [readChain] at h
    exact absurd h (by simp)
  | fuel + 1, c, out, f, b, o, f', h => by
    unfold readChain at h
    have hm := readClus_looked cap f.secPerClus (clusLba c f.toGeo) out f
    split at h
    next =>
      split at h
      next => exact (Prod.mk.inj (Prod.mk.inj (Option.some.inj h)).2).2 ▸ Looked.refl f
      next =>
        split at h
        next o₁ f₁ hs =>
          rw [hs] at hm
          exact (Prod.mk.inj (Prod.mk.inj (Option.some.inj h)).2).2 ▸ hm
        next o₁ f₁ hs =>
          rw [hs] at hm
          exact (hm.trans (fatNext_looked c f₁)).trans (readChain_looked cap fuel _ o₁ _ h)
    next => exact (Prod.mk.inj (Prod.mk.inj (Option.some.inj h)).2).2 ▸ Looked.refl f

theorem fatRead_looked {fuel : Nat} {path : Str} {cap : Nat} {f f' : Vol} {r : Option Nat × Str}
    (h : fatRead fuel path cap f = some (r, f')) : Looked f f' := by
  unfold fatRead at h
  split at h
  next => exact (Looked.refl _).ret h
  next =>
    split at h
    next => exact absurd h (by simp)
    next hw => exact (walk_looked hw).ret h
    next hw =>
      split at h
      next => exact (walk_looked hw).ret h
      next =>
        split at h
        next => exact absurd h (by simp)
        next hc =>
          exact ((walk_looked hw).trans (readChain_looked _ _ _ _ _ hc)).ret h
        next hc =>
          exact ((walk_looked hw).trans (readChain_looked _ _ _ _ _ hc)).ret h

theorem lookup_looked {fuel c : Nat} {name83 : Str} {f f' : Vol} {r : Option Found}
    (h : lookup fuel c name83 f = some (r, f')) : Looked f f' := by
  unfold lookup at h
  split at h
  next => exact absurd h (by simp)
  next hs => exact (scanDir_looked _ _ _ _ _ _ _ hs).ret h
  next hs => exact (scanDir_looked _ _ _ _ _ _ _ hs).ret h

/-! ## Calls that write -/

/-- Only the drive, the sector buffer and the allocation hint may differ. -/
def Moved (f f' : Vol) : Prop := ∃ ws, Ran f f' ws

theorem Moved.refl (f : Vol) : Moved f f := ⟨[], Ran.sec f f.sec⟩

theorem Moved.trans {f f₁ f₂ : Vol} (h : Moved f f₁) (h' : Moved f₁ f₂) : Moved f f₂ := by
  obtain ⟨ws, h⟩ := h
  obtain ⟨vs, h'⟩ := h'
  exact ⟨ws ++ vs, h.trans h'⟩

theorem Moved.sec (f : Vol) (s : Sector) : Moved f { f with sec := s } := ⟨[], Ran.sec f s⟩

theorem Moved.cwdPath {f f' : Vol} (h : Moved f f') : f'.cwdPath = f.cwdPath := by
  obtain ⟨ws, s, n, rfl⟩ := h
  rfl

/-- The state a call returned with. -/
theorem Moved.ret {α : Type} {f f₁ f' : Vol} {a b : α} (hm : Moved f f₁)
    (h : some (a, f₁) = some (b, f')) : Moved f f' := by
  rw [← (Prod.mk.inj (Option.some.inj h)).2]
  exact hm

theorem Looked.moved {f f' : Vol} (h : Looked f f') : Moved f f' := by
  obtain ⟨s, rfl⟩ := h
  exact Moved.sec f s

theorem ideWrite_moved (l : Nat) (b : Sector) (f : Vol) : Moved f (ideWrite l b f).2 :=
  ⟨[(l, b)], f.sec, f.allocHint, rfl⟩

theorem fatSetLoop_moved (c v : Nat) : ∀ (n k : Nat) (f : Vol), Moved f (fatSetLoop c v n k f).2
  | 0, _, f => Moved.refl f
  | n + 1, k, f => by
    unfold fatSetLoop
    dsimp only
    split
    next => exact Moved.refl f
    next f₁ h =>
      have hm := (ideRead_looked h).moved.trans (Moved.sec f₁ (wr32 f₁.sec (c * 4 % 512) v))
      have hw := hm.trans (ideWrite_moved (f.fatStart + k * f.fatSz + c * 4 / 512)
        (wr32 f₁.sec (c * 4 % 512) v) _)
      split
      next hs =>
        rw [hs] at hw
        exact hw
      next hs =>
        rw [hs] at hw
        exact hw.trans (fatSetLoop_moved c v n (k + 1) _)

theorem fatSet_moved (c v : Nat) (f : Vol) : Moved f (fatSet c v f).2 :=
  fatSetLoop_moved c v f.numFats 0 f

theorem Moved.hint (f : Vol) (h : Nat) : Moved f { f with allocHint := h } :=
  ⟨[], f.sec, h, rfl⟩

theorem allocLoop_moved (max : Nat) : ∀ (n i : Nat) (f : Vol), Moved f (allocLoop max n i f).2
  | 0, _, f => Moved.refl f
  | n + 1, i, f => by
    unfold allocLoop
    dsimp only
    generalize 2 + (f.allocHint + i) % 2 ^ 32 % (if max - 2 > 0 then max - 2 else 1) = c
    split
    next => exact allocLoop_moved max n (i + 1) f
    next =>
      split
      next => exact Moved.refl f
      next f₁ h =>
        have hm := (ideRead_looked h).moved
        split
        next =>
          have hset := hm.trans (fatSet_moved c 0x0FFFFFFF f₁)
          split
          next hs =>
            rw [hs] at hset
            exact hset
          next hs =>
            rw [hs] at hset
            exact hset.trans (Moved.hint _ c)
        next => exact hm.trans (allocLoop_moved max n (i + 1) f₁)

theorem allocClus_moved (f : Vol) : Moved f (allocClus f).2 := allocLoop_moved _ _ _ f

theorem freeChain_moved : ∀ (fuel c : Nat) (f : Vol) {f' : Vol},
    freeChain fuel c f = some f' → Moved f f'
  | 0, _, _, _, h => by
    rw [freeChain] at h
    exact absurd h (by simp)
  | fuel + 1, c, f, f', h => by
    unfold freeChain at h
    split at h
    next =>
      exact ((fatNext_looked c f).moved.trans (fatSet_moved c 0 _)).trans
        (freeChain_moved fuel _ _ h)
    next => exact (Option.some.inj h) ▸ Moved.refl f

theorem zeroClus_moved : ∀ (n l : Nat) (f : Vol), Moved f (zeroClus n l f).2
  | 0, _, f => Moved.refl f
  | n + 1, l, f => by
    unfold zeroClus
    have hw := ideWrite_moved l (fun _ => 0) f
    split
    next hs =>
      rw [hs] at hw
      exact hw
    next hs =>
      rw [hs] at hw
      exact hw.trans (zeroClus_moved n (l + 1) _)

theorem growDir_moved (prev : Nat) (f : Vol) : Moved f (growDir prev f).2 := by
  unfold growDir
  have ha := allocClus_moved f
  split
  next nc f₁ hs =>
    rw [hs] at ha
    split
    next => exact ha
    next =>
      have hz := ha.trans (zeroClus_moved f₁.secPerClus (clusLba nc f₁.toGeo) f₁)
      split
      next hs =>
        rw [hs] at hz
        exact hz
      next f₂ hs =>
        rw [hs] at hz
        have hset := hz.trans (fatSet_moved prev nc f₂)
        split
        next hs =>
          rw [hs] at hset
          exact hset
        next f₃ hs =>
          rw [hs] at hset
          split
          next => exact hset
          next h => exact hset.trans (ideRead_looked h).moved

theorem dirSlot_moved {fuel c : Nat} {f f' : Vol} {r : Option (Nat × Nat)}
    (h : dirSlot fuel c f = some (r, f')) : Moved f f' := by
  unfold dirSlot at h
  split at h
  next => exact absurd h (by simp)
  next hs => exact (scanDir_looked _ _ _ _ _ _ _ hs).moved.ret h
  next prev f₁ hs =>
    have hm := (scanDir_looked _ _ _ _ _ _ _ hs).moved
    split at h
    next => exact hm.ret h
    next =>
      have hg := hm.trans (growDir_moved prev f₁)
      rw [Option.some.inj h] at hg
      exact hg

theorem writeClus_moved : ∀ (n l : Nat) (left : Str) (f : Vol),
    Moved f (writeClus n l left f).2.2
  | 0, _, _, f => Moved.refl f
  | n + 1, l, left, f => by
    unfold writeClus
    dsimp only
    split
    next => exact Moved.refl f
    next =>
      have hw := (Moved.sec f (fillSec left)).trans
        (ideWrite_moved l (fillSec left) { f with sec := fillSec left })
      split
      next hs =>
        rw [hs] at hw
        exact hw
      next hs =>
        rw [hs] at hw
        exact hw.trans (writeClus_moved n (l + 1) _ _)

theorem giveUp_moved {fuel c : Nat} {f f' : Vol} {r : Option Nat}
    (h : giveUp fuel c f = some (r, f')) : Moved f f' := by
  rw [giveUp, Option.map_eq_some_iff] at h
  obtain ⟨f₁, hf, he⟩ := h
  exact (Prod.mk.inj he).2 ▸ freeChain_moved fuel c f hf

theorem writeChain_moved (fuel : Nat) : ∀ (k : Nat) (left : Str) (newclus tail : Nat) (f : Vol)
    {r : Option Nat} {f' : Vol}, writeChain fuel k left newclus tail f = some (r, f') → Moved f f'
  | 0, _, _, _, _, _, _, h => by
    rw [writeChain] at h
    exact absurd h (by simp)
  | k + 1, left, newclus, tail, f, r, f', h => by
    unfold writeChain at h
    have ha := allocClus_moved f
    split at h
    next => exact (Moved.refl f).ret h
    next =>
      split at h
      next c f₁ hs =>
        rw [hs] at ha
        split at h
        next => exact ha.trans (giveUp_moved h)
        next =>
          have hset : Moved f₁ (if newclus = 0 then (true, f₁) else fatSet tail c f₁).2 := by
            split
            · exact Moved.refl f₁
            · exact fatSet_moved tail c f₁
          split at h
          next hl =>
            rw [hl] at hset
            exact (ha.trans hset).trans (giveUp_moved h)
          next f₂ hl =>
            rw [hl] at hset
            have hw := writeClus_moved f₂.secPerClus (clusLba c f₂.toGeo) left f₂
            dsimp only at h
            split at h
            next hc =>
              rw [hc] at hw
              exact ((ha.trans hset).trans hw).trans (giveUp_moved h)
            next hc =>
              rw [hc] at hw
              exact ((ha.trans hset).trans hw).trans (writeChain_moved fuel k _ _ _ _ h)

theorem freeThen_moved {fuel c : Nat} {b ok : Bool} {f f' : Vol}
    (h : (freeChain fuel c f).map (fun f => (b, f)) = some (ok, f')) : Moved f f' := by
  rw [Option.map_eq_some_iff] at h
  obtain ⟨f₁, hf, he⟩ := h
  exact (Prod.mk.inj he).2 ▸ freeChain_moved fuel c f hf

theorem switchEntry_moved {fuel lba off newclus len : Nat} {found : Option Found} {name83 : Str}
    {f f' : Vol} {ok : Bool}
    (h : switchEntry fuel found lba off name83 newclus len f = some (ok, f')) : Moved f f' := by
  unfold switchEntry at h
  dsimp only at h
  have hw := (Moved.sec f (fillEntry f.sec off name83 0x20 newclus (len % 2 ^ 32))).trans
    (ideWrite_moved lba (fillEntry f.sec off name83 0x20 newclus (len % 2 ^ 32)) _)
  split at h
  next hs =>
    rw [hs] at hw
    exact hw.trans (freeThen_moved h)
  next hs =>
    rw [hs] at hw
    split at h
    next => exact hw.ret h
    next =>
      split at h
      next => exact hw.trans (freeThen_moved h)
      next => exact hw.ret h

theorem storeFile_moved {fuel pclus : Nat} {name83 buf : Str} {found : Option Found} {f f' : Vol}
    {ok : Bool} (h : storeFile fuel pclus name83 found buf f = some (ok, f')) : Moved f f' := by
  unfold storeFile at h
  split at h
  next => exact absurd h (by simp)
  next hc => exact (writeChain_moved _ _ _ _ _ _ hc).ret h
  next hc =>
    have hm := writeChain_moved _ _ _ _ _ _ hc
    split at h
    next =>
      split at h
      next => exact hm.trans (freeThen_moved h)
      next hr => exact (hm.trans (ideRead_looked hr).moved).trans (switchEntry_moved h)
    next =>
      split at h
      next => exact absurd h (by simp)
      next hd => exact (hm.trans (dirSlot_moved hd)).trans (freeThen_moved h)
      next hd => exact (hm.trans (dirSlot_moved hd)).trans (switchEntry_moved h)

theorem fatWrite_moved {fuel : Nat} {path buf : Str} {f f' : Vol} {ok : Bool}
    (h : fatWrite fuel path buf f = some (ok, f')) : Moved f f' := by
  unfold fatWrite at h
  split at h
  next => exact (Moved.refl f).ret h
  next =>
    split at h
    next => exact (Moved.refl f).ret h
    next =>
      dsimp only at h
      split at h
      next => exact (Moved.refl f).ret h
      next =>
        split at h
        next => exact absurd h (by simp)
        next hw => exact (walk_looked hw).moved.ret h
        next hw =>
          have hm := (walk_looked hw).moved
          split at h
          next => exact hm.ret h
          next =>
            split at h
            next => exact hm.ret h
            next =>
              split at h
              next => exact absurd h (by simp)
              next hl => exact (hm.trans (lookup_looked hl).moved).trans (storeFile_moved h)
              next hl =>
                have hm' := hm.trans (lookup_looked hl).moved
                split at h
                next => exact hm'.ret h
                next => exact hm'.trans (storeFile_moved h)

/-! ## Sequences of calls -/

/-- A system call on the volume. -/
inductive FatCall where
  | chdir (path : Str)
  | list (path : Str) (cap : Nat)
  | read (path : Str) (cap : Nat)
  | write (path buf : Str)

/-- The path `abspath` is given: `fat_chdir("")` means `/`. -/
def FatCall.arg : FatCall → Str
  | chdir path => if path = [] then [slash] else path
  | list path _ => path
  | read path _ => path
  | write path _ => path

/-- The state after a call; `none` is a call that does not return within the
rounds allowed. -/
def FatCall.run (fuel : Nat) (f : Vol) : FatCall → Option Vol
  | chdir path => (fatChdir fuel path f).map Prod.snd
  | list path cap => (fatList fuel path cap f).map Prod.snd
  | read path cap => (fatRead fuel path cap f).map Prod.snd
  | write path buf => (fatWrite fuel path buf f).map Prod.snd

/-- `f'` is the state after the calls `cs`, all of which returned. -/
inductive Reached (f : Vol) : List FatCall → Vol → Prop
  | refl : Reached f [] f
  | step {cs : List FatCall} {f₁ f' : Vol} {c : FatCall} {fuel : Nat} : Reached f cs f₁ →
      c.run fuel f₁ = some f' → Reached f (cs ++ [c]) f'

theorem Reached.of_nil {f f' : Vol} (h : Reached f [] f') : f' = f := by
  generalize hcs : ([] : List FatCall) = cs at h
  cases h with
  | refl => rfl
  | step _ _ => simp at hcs

/-- **What a call does to the current directory**: nothing, or it is a `fat_chdir`
that stores what it has resolved and walked to. -/
theorem FatCall.run_cases {fuel : Nat} {f f' : Vol} {c : FatCall} (h : c.run fuel f = some f') :
    Moved f f' ∨ ∃ path abs hit f₁, c = chdir path ∧ abspath f.cwdPath c.arg = some abs ∧
      walk fuel abs false 0 f = some (some hit, f₁) ∧ hit.isdir = true ∧
      f' = { f₁ with cwdClus := hit.clus, cwdPath := abs } := by
  cases c with
  | chdir path =>
    rw [run, Option.map_eq_some_iff] at h
    obtain ⟨⟨b, f₂⟩, h, rfl⟩ := h
    unfold fatChdir at h
    split at h
    next => exact Or.inl ((Moved.refl f).ret h)
    next abs habs =>
      split at h
      next => exact absurd h (by simp)
      next hw => exact Or.inl ((walk_looked hw).moved.ret h)
      next hit f₁ hw =>
        split at h
        next => exact Or.inl ((walk_looked hw).moved.ret h)
        next hdir =>
          refine Or.inr ⟨path, abs, hit, f₁, rfl, habs, hw, by simpa using hdir, ?_⟩
          exact (Prod.mk.inj (Option.some.inj h)).2.symm
  | list path cap =>
    rw [run, Option.map_eq_some_iff] at h
    obtain ⟨⟨r, f₂⟩, h, rfl⟩ := h
    exact Or.inl (fatList_looked h).moved
  | read path cap =>
    rw [run, Option.map_eq_some_iff] at h
    obtain ⟨⟨r, f₂⟩, h, rfl⟩ := h
    exact Or.inl (fatRead_looked h).moved
  | write path buf =>
    rw [run, Option.map_eq_some_iff] at h
    obtain ⟨⟨r, f₂⟩, h, rfl⟩ := h
    exact Or.inl (fatWrite_moved h)

/-- Mounting starts in the root. -/
theorem fatMount_cwd {part : Nat} {f f' : Vol} (h : fatMount part f = (true, f')) :
    f'.cwdPath = [slash] ∧ f'.cwdClus = f'.rootClus := by
  unfold fatMount at h
  split at h
  next => simp at h
  next =>
    dsimp only at h
    split at h
    next => simp at h
    next =>
      split at h
      next => simp at h
      next =>
        rw [← (Prod.mk.inj h).2]
        exact ⟨rfl, rfl⟩

end InaneOS.Fat
