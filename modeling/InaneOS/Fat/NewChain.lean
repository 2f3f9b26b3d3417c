import InaneOS.Fat.Read

/-!
# Building the new chain

The first phase of `fat_write`: clusters are taken from the free ones, linked, and
filled with the data. Until the directory entry is written none of them is under
a reference, so at every cut of this phase the disk is the old one outside
clusters that no reference owns (`Kept`), and `Tree.frame` applies. `Built` adds
what has been achieved so far: a chain `ncs` that holds the bytes `out`.

`writeChain_spec` is the phase as a whole. The loop ends because every round
takes a cluster that is not in the chain yet.
-/

namespace InaneOS.Fat

open InaneOS.Lib

/-! ## Writing the sectors of one cluster -/

theorem Disk.crash_data_other : ∀ {ws : List (Nat × Sector)} {d : Disk} {l : Nat},
    (∀ w ∈ ws, w.1 ≠ l) → (d.crash ws).data l = d.data l
  | [], _, _, _ => rfl
  | w :: ws, d, l, h => by
    rw [Disk.crash_cons, Disk.crash_data_other fun x hx => h x (List.mem_cons_of_mem _ hx),
      Disk.put_data_ne _ (Ne.symm (h w (by simp)))]

theorem put_sameOff {g : Geo} {d : Disk} {c : Nat} {w : Nat × Sector} (hc : InRange g c)
    (hw : PosData g c w.1) : SameOff g (fun _ => False) (· = c) d (d.put w) := by
  refine ⟨rfl, fun l i _ hB => ?_⟩
  rw [Disk.put_data_ne]
  intro he
  subst he
  exact hB c hc rfl hw

/-- Writes into one cluster, at every cut. -/
theorem always_posData {g : Geo} {d₀ : Disk} {c : Nat} (hc : InRange g c) :
    ∀ {ws : List (Nat × Sector)} {d : Disk}, (∀ w ∈ ws, PosData g c w.1) →
      SameOff g (fun _ => False) (· = c) d₀ d →
      Always Disk.put (SameOff g (fun _ => False) (· = c) d₀) d ws
  | [], _, _, h => h
  | w :: ws, d, hw, h => ⟨h, always_posData hc (fun x hx => hw x (List.mem_cons_of_mem _ hx))
      (h.trans (put_sameOff hc (hw w (by simp))))⟩

theorem holds_sector {d : Disk} {l : Nat} {ls : List Nat} {buf : Str} (hl : d.drive.reads l = true)
    (hd : ∀ i < 512, d.data l i = buf.getD i 0) (h : Holds d ls (buf.drop 512)) :
    Holds d (l :: ls) buf := by
  cases buf with
  | nil => exact trivial
  | cons b bs => exact ⟨hl, hd, h⟩

theorem zeroClus_spec : ∀ (n l : Nat) (f : Vol), ∃ ok f' ws, zeroClus n l f = (ok, f') ∧
    Ran f f' ws ∧ (∀ w ∈ ws, l ≤ w.1 ∧ w.1 < l + n) ∧
    (ok = true → ∀ s, l ≤ s → s < l + n → f.disk.drive.writes s = true ∧
      ∀ i, f'.disk.data s i = 0)
  | 0, l, f => ⟨true, f, [], rfl, Ran.sec f f.sec, by simp, fun _ s h1 h2 => by omega⟩
  | n + 1, l, f => by
    by_cases hlt : f.disk.drive.writes l = true
    · obtain ⟨ok, f', ws, hrun, hran, hpos, hz⟩ :=
        zeroClus_spec n (l + 1) { f with disk := f.disk.put (l, fun _ => 0) }
      refine ⟨ok, f', (l, fun _ => 0) :: ws, ?_, ?_, ?_, fun hok s h1 h2 => ?_⟩
      · simp only [zeroClus, ideWrite, hlt]
        exact hrun
      · obtain ⟨s, h, rfl⟩ := hran
        exact ⟨s, h, rfl⟩
      · intro w hw
        rcases List.mem_cons.mp hw with rfl | hw
        · exact ⟨Nat.le_refl _, by omega⟩
        · have := hpos w hw
          omega
      · rcases Nat.lt_or_ge l s with hls | hls
        · exact hz hok s hls (by omega)
        · obtain rfl : s = l := by omega
          refine ⟨hlt, fun i => ?_⟩
          rw [hran.disk, Disk.crash_data_other fun w hw => by have := hpos w hw; omega]
          show (f.disk.put (s, fun _ => 0)).data s i = 0
          rw [Disk.put_data_same _ hlt]
    · refine ⟨false, { f with disk := f.disk.put (l, fun _ => 0) }, [(l, fun _ => 0)], ?_,
        ⟨f.sec, f.allocHint, rfl⟩, ?_, by simp⟩
      · simp only [zeroClus, ideWrite, Bool.eq_false_iff.mpr hlt]
      · intro w hw
        rw [List.mem_singleton.mp hw]
        exact ⟨Nat.le_refl _, by omega⟩

theorem writeClus_spec : ∀ (n l : Nat) (left : Str) (f : Vol), ∃ ok rest f' ws,
    writeClus n l left f = (ok, rest, f') ∧ Ran f f' ws ∧ (∀ w ∈ ws, l ≤ w.1 ∧ w.1 < l + n) ∧
    (ok = true → rest = left.drop (n * 512) ∧ (Readable f.disk →
      Holds f'.disk (List.range' l n) (left.take (n * 512))))
  | 0, l, left, f => by
    refine ⟨true, left, f, [], rfl, Ran.sec f f.sec, by simp, fun _ => ⟨by simp, ?_⟩⟩
    rw [Nat.zero_mul, List.take_zero]
    exact fun _ => trivial
  | n + 1, l, left, f => by
    by_cases hleft : left = []
    · subst hleft
      refine ⟨true, [], f, [], by rw [writeClus, if_pos rfl], Ran.sec f f.sec, by simp,
        fun _ => ⟨by simp, ?_⟩⟩
      rw [List.take_nil]
      cases n <;> exact fun _ => trivial
    · by_cases hlt : f.disk.drive.writes l = true
      · obtain ⟨ok, rest, f', ws, hrun, hran, hpos, hz⟩ := writeClus_spec n (l + 1) (left.drop 512)
          { f with sec := fillSec left, disk := f.disk.put (l, fillSec left) }
        refine ⟨ok, rest, f', (l, fillSec left) :: ws, ?_, ?_, ?_, fun hok => ?_⟩
        · simp only [writeClus, if_neg hleft, ideWrite, hlt]
          exact hrun
        · obtain ⟨s, h, rfl⟩ := hran
          exact ⟨s, h, rfl⟩
        · intro w hw
          rcases List.mem_cons.mp hw with rfl | hw
          · exact ⟨Nat.le_refl _, by omega⟩
          · have := hpos w hw
            omega
        · obtain ⟨hrest, hholds⟩ := hz hok
          have hmul : (n + 1) * 512 = 512 + n * 512 := by ring
          have hdata : f'.disk.data l = fillSec left := by
            rw [hran.disk, Disk.crash_data_other fun w hw => by have := hpos w hw; omega]
            exact Disk.put_data_same _ hlt
          refine ⟨by rw [hrest, List.drop_drop, hmul], fun hrd => ?_⟩
          rw [List.range'_succ]
          refine holds_sector ?_ (fun i hi => ?_) ?_
          · rw [hran.disk, Disk.crash_drive]
            exact hrd l hlt
          · rw [hdata, fillSec, if_pos hi, List.getD_eq_getElem?_getD, List.getD_eq_getElem?_getD,
              List.getElem?_take_of_lt (by omega)]
          · rw [hmul, List.drop_take, Nat.add_sub_cancel_left]
            exact hholds hrd
      · refine ⟨false, left.drop 512,
          { f with sec := fillSec left, disk := f.disk.put (l, fillSec left) },
          [(l, fillSec left)], ?_, ⟨fillSec left, f.allocHint, rfl⟩, ?_, by simp⟩
        · simp only [writeClus, if_neg hleft, ideWrite, Bool.eq_false_iff.mpr hlt]
        · intro w hw
          rw [List.mem_singleton.mp hw]
          exact ⟨Nat.le_refl _, by omega⟩

/-! ## Linking the cluster just allocated -/

/-- What `if (!newclus) newclus = c; else fat_set(tail, c)` did, for the clusters `ncs` so
far. -/
def Linked (f₁ : Vol) (ncs : List Nat) (c : Nat) (f₂ : Vol) (us : List (Nat × Sector)) : Prop :=
  ncs = [] ∧ f₂ = f₁ ∧ us = [] ∨ ncs ≠ [] ∧ SetDone f₁ (ncs.getLastD 0) c f₂ us

theorem headD_in {g : Geo} {d : Disk} {ncs : List Nat} (h : ClusChain g d (ncs.headD 0) ncs)
    (hne : ncs ≠ []) : InRange g (ncs.headD 0) := by
  refine h.2 (ncs.headD 0) ?_
  cases ncs with
  | nil => exact absurd rfl hne
  | cons a l => simp

theorem getLastD_mem {ncs : List Nat} (hne : ncs ≠ []) : ncs.getLastD 0 ∈ ncs := by
  rw [List.getLastD_eq_getLast?, List.getLast?_eq_getLast_of_ne_nil hne]
  exact List.getLast_mem hne

/-- `newclus` after the round. -/
theorem head_link {g : Geo} {d : Disk} {ncs : List Nat}
    (hch : ncs ≠ [] → ClusChain g d (ncs.headD 0) ncs) {c : Nat} :
    (if ncs.headD 0 = 0 then c else ncs.headD 0) = (ncs ++ [c]).headD 0 := by
  cases ncs with
  | nil => rfl
  | cons a l =>
    have hin := headD_in (hch (by simp)) (by simp)
    rw [if_neg (by have := hin.1; omega)]
    rfl

/-- The cluster becomes the last one of the chain. -/
theorem linkLast_spec {g : Geo} {f f₁ : Vol} (hgeo : f.toGeo = g) (hg : g.Ok)
    (ho : FatsOn g f.disk) {ncs : List Nat} {c : Nat} {vs : List (Nat × Sector)}
    (hch : ncs ≠ [] → ClusChain g f.disk (ncs.headD 0) ncs) (hr : InRange g c)
    (hz : fatEntry g f.disk 0 c = 0) (hd : SetDone f c lastMark f₁ vs) :
    ∃ f₂ us, (if ncs.headD 0 = 0 then (true, f₁) else fatSet (ncs.getLastD 0) c f₁) = (true, f₂) ∧
      Linked f₁ ncs c f₂ us ∧ ClusChain g f₂.disk ((ncs ++ [c]).headD 0) (ncs ++ [c]) := by
  have hg₁ : f₁.toGeo = g := hd.ran.geo.trans hgeo
  have hoff := hd.sameOff
  have hmark := hd.entry 0 (by rw [hgeo]; exact hg.fats_pos)
  have hclt := hr.lt_eoc hg
  rw [hgeo] at hoff hmark
  by_cases hne : ncs = []
  · subst hne
    refine ⟨f₁, [], rfl, Or.inl ⟨rfl, rfl, rfl⟩, ⟨rfl, Nat.not_le.mpr hclt, ?_⟩, fun x hx => ?_⟩
    · show eoc ≤ link g f₁.disk c
      rw [link_of_entry hmark (by decide)]
      decide
    · rw [List.mem_singleton.mp hx]
      exact hr
  · -- the last cluster so far is redirected to `c`
    obtain ⟨l, t, rfl⟩ : ∃ l t, ncs = l ++ [t] :=
      ⟨ncs.dropLast, ncs.getLast hne, (List.dropLast_append_getLast hne).symm⟩
    have hch := hch hne
    have hcnot : c ∉ l ++ [t] := fun hmem => hch.entry_ne hmem hz
    have hch₁ : ClusChain g f₁.disk ((l ++ [t]).headD 0) (l ++ [t]) :=
      hch.sameOff hg hoff fun x hx hxc => hcnot (hxc ▸ hx)
    have htin : InRange g t := hch.2 t (by simp)
    have hhead0 : (l ++ [t]).headD 0 ≠ 0 := by
      have := (headD_in hch hne).1
      omega
    have hv : c < 2 ^ 32 := by
      unfold eoc at hclt
      omega
    obtain ⟨f₂, us, hset, hd₂⟩ := fatSet_spec (c := t) (v := c) (f := f₁)
      (by rw [hg₁]; exact hg) (by rw [hg₁]; exact ho.congr hoff.drive) (by rw [hg₁]; exact htin) hv
    have htlast : (l ++ [t]).getLastD 0 = t := by simp
    have hoff₂ := hd₂.sameOff
    have hent₂ := hd₂.entry 0 (by rw [hg₁]; exact hg.fats_pos)
    rw [hg₁] at hoff₂ hent₂
    have hnd := hch.1.nodup
    have htl : t ∉ l := fun h => by
      rw [List.nodup_append] at hnd
      exact hnd.2.2 t h t (by simp) rfl
    have hct : c ≠ t := fun h => hcnot (by simp [h])
    refine ⟨f₂, us, ?_, Or.inr ⟨hne, by rw [htlast]; exact hd₂⟩, ?_⟩
    · rw [if_neg hhead0, htlast]
      exact hset
    · have hhead : ((l ++ [t]) ++ [c]).headD 0 = (l ++ [t]).headD 0 := by cases l <;> rfl
      rw [hhead, List.append_assoc]
      refine ⟨hch₁.1.extend l (fun x hx => ?_) ?_ (Nat.not_le.mpr hclt) ?_, fun x hx => ?_⟩
      · exact hoff₂.link hg (hch.2 x (by simp [hx])).2 fun _ hxt => htl (hxt ▸ hx)
      · exact link_of_entry hent₂ (by unfold eoc at hclt; omega)
      · show eoc ≤ link g f₂.disk c
        rw [hoff₂.link hg hr.2 fun _ => hct, link_of_entry hmark (by decide)]
        decide
      · rcases List.mem_append.mp hx with hx | hx
        · exact hch.2 x (by simp [hx])
        · rcases List.mem_cons.mp hx with rfl | hx
          · exact htin
          · rw [List.mem_singleton.mp hx]
            exact hr

/-! ## Clusters that nobody owns -/

/-- No reference goes through `c`. -/
def Free (f₀ : Vol) (c : Nat) : Prop := ¬ Owned f₀.toGeo f₀.disk c

/-- From `f₀` to `f` only clusters that are free in `f₀` were touched. -/
structure Kept (f₀ f : Vol) (ws : List (Nat × Sector)) : Prop where
  ran : Ran f₀ f ws
  inside : ∀ w ∈ ws, Inside f₀.toGeo w.1
  cuts : Always Disk.put (SameOff f₀.toGeo (Free f₀) (Free f₀) f₀.disk) f₀.disk ws
  copies : Copies f₀.toGeo f₀.disk → Copies f₀.toGeo f.disk

theorem SameOff.copies {g : Geo} {B : Nat → Prop} {d d' : Disk} (hg : g.Ok)
    (h : SameOff g (fun _ => False) B d d') (hcp : Copies g d) : Copies g d' := by
  intro k hk c hc
  rw [h.entry hg hk hc fun _ h => h, h.entry hg hg.fats_pos hc fun _ h => h]
  exact hcp k hk c hc

namespace Kept

theorem refl (f : Vol) : Kept f f [] :=
  ⟨Ran.sec f f.sec, by simp, SameOff.refl .., id⟩

variable {f₀ f f' : Vol} {ws vs : List (Nat × Sector)}

theorem sameOff (h : Kept f₀ f ws) :
    SameOff f₀.toGeo (Free f₀) (Free f₀) f₀.disk f.disk := by
  rw [h.ran.disk]
  exact h.cuts.final

theorem fatsOn (h : Kept f₀ f ws) (ho : FatsOn f₀.toGeo f₀.disk) : FatsOn f.toGeo f.disk := by
  rw [h.ran.geo, h.ran.disk]
  exact ho.crash ws

/-- One more call that touches free clusters only. -/
theorem step {A B : Nat → Prop} (h : Kept f₀ f ws) (hran : Ran f f' vs)
    (hin : ∀ w ∈ vs, Inside f₀.toGeo w.1)
    (hcut : Always Disk.put (SameOff f₀.toGeo A B f.disk) f.disk vs)
    (hA : ∀ c, A c → Free f₀ c) (hB : ∀ c, B c → Free f₀ c)
    (hcp : Copies f₀.toGeo f.disk → Copies f₀.toGeo f'.disk) : Kept f₀ f' (ws ++ vs) := by
  refine ⟨h.ran.trans hran, fun w hw => ?_, h.cuts.append ?_, fun hc => hcp (h.copies hc)⟩
  · rcases List.mem_append.mp hw with hw | hw
    · exact h.inside w hw
    · exact hin w hw
  · have hd : f.disk = ws.foldl Disk.put f₀.disk := h.ran.disk
    rw [← hd]
    exact hcut.imp fun d hd' => h.sameOff.trans
      (hd'.mono (fun c _ hc => hA c hc) (fun c _ hc => hB c hc))

/-- The buffer does not matter. -/
theorem sec (h : Kept f₀ f ws) (s : Sector) : Kept f₀ { f with sec := s } ws :=
  ⟨by simpa using h.ran.trans (Ran.sec f s), h.inside, h.cuts, h.copies⟩

variable (ht : Tree f₀.toGeo f₀.disk)

include ht

theorem set {c v : Nat} (h : Kept f₀ f ws) (hd : SetDone f c v f' vs) (hc : Free f₀ c) :
    Kept f₀ f' (ws ++ vs) := by
  have hg : f.toGeo = f₀.toGeo := h.ran.geo
  obtain ⟨hran, hin, hcut, -⟩ := id hd
  rw [hg] at hin hcut
  refine h.step hran hin (hcut.imp fun d hd' => hd'.1) (fun x hx => hx ▸ hc) (by simp) ?_
  rw [← hg]
  exact hd.copies (by rw [hg]; exact ht.geo)

/-- Writes into one free cluster. -/
theorem clus {c : Nat} (h : Kept f₀ f ws) (hran : Ran f f' vs)
    (hr : InRange f₀.toGeo c) (hpos : ∀ w ∈ vs, PosData f₀.toGeo c w.1) (hc : Free f₀ c) :
    Kept f₀ f' (ws ++ vs) ∧ SameOff f₀.toGeo (fun _ => False) (· = c) f.disk f'.disk := by
  have hcut := @always_posData _ f.disk _ hr _ _ hpos (SameOff.refl ..)
  have hoff : SameOff f₀.toGeo (fun _ => False) (· = c) f.disk f'.disk := by
    rw [hran.disk]
    exact hcut.final
  exact ⟨h.step hran (fun w hw => inside_posData ht.geo hr (hpos w hw)) hcut (by simp)
    (fun x hx => hx ▸ hc) (hoff.copies ht.geo), hoff⟩

/-- A cluster with a zero entry is one that nobody owns. -/
theorem free_of_zero (h : Kept f₀ f ws) {c : Nat} (hz : fatEntry f₀.toGeo f.disk 0 c = 0) :
    Free f₀ c := by
  intro h
  obtain ⟨r, cs, hr, hcs, hc⟩ := h
  have hown : ¬ Free f₀ c := fun hn => hn ⟨r, cs, hr, hcs, hc⟩
  rw [h.sameOff.entry ht.geo ht.geo.fats_pos (hcs.2 c hc).2 fun _ => hown] at hz
  exact hcs.entry_ne hc hz

/-- `alloc_clus` fails without a trace or takes a free cluster. -/
theorem alloc (h : Kept f₀ f ws) :
    (∃ s, allocClus f = (0, { f with sec := s })) ∨
    ∃ c f' vs, allocClus f = (c, f') ∧ InRange f₀.toGeo c ∧ Free f₀ c ∧
      fatEntry f₀.toGeo f.disk 0 c = 0 ∧ SetDone f c lastMark f' vs ∧ Kept f₀ f' (ws ++ vs) := by
  have hg : f.toGeo = f₀.toGeo := h.ran.geo
  rcases allocClus_spec (f := f) (by rw [hg]; exact ht.geo) (h.fatsOn ht.fatsOn) with
    hnone | ⟨c, f', vs, hrun, hr, hz, hd⟩
  · exact Or.inl hnone
  · rw [hg] at hr hz
    have hfree := h.free_of_zero ht hz
    exact Or.inr ⟨c, f', vs, hrun, hr, hfree, hz, hd, h.set ht hd hfree⟩

/-- `free_chain` on a chain of free clusters. -/
theorem free {fuel c : Nat} {cs : List Nat} (h : Kept f₀ f ws)
    (hfuel : f₀.fatSz * 128 ≤ fuel) (hcs : ClusChain f₀.toGeo f.disk c cs)
    (hfree : ∀ x ∈ cs, Free f₀ x) :
    ∃ f' vs, freeChain fuel c f = some f' ∧ Kept f₀ f' (ws ++ vs) := by
  have hg : f.toGeo = f₀.toGeo := h.ran.geo
  obtain ⟨f', vs, hrun, hran, hin, hcut, -, hcp⟩ := freeChain_spec cs c fuel f
    (by rw [hg]; exact ht.geo) (h.fatsOn ht.fatsOn) (by rw [hg]; exact hcs)
    (Nat.lt_of_lt_of_le (hcs.length_lt ht.geo) hfuel)
  rw [hg] at hin hcut hcp
  exact ⟨f', vs, hrun, h.step hran hin hcut hfree (by simp) hcp⟩

end Kept

/-! ## The chain under construction -/

/-- Besides, `ncs` is a chain of free clusters that holds `out`. -/
structure Built (f₀ f : Vol) (ws : List (Nat × Sector)) (ncs : List Nat) (out : Str) : Prop extends
    Kept f₀ f ws where
  chain : ncs ≠ [] → ClusChain f₀.toGeo f.disk (ncs.headD 0) ncs
  free : ∀ x ∈ ncs, Free f₀ x
  holds : Holds f.disk (secsOf f₀.toGeo ncs) out

theorem secsOf_length (g : Geo) : ∀ (cs : List Nat), (secsOf g cs).length = cs.length * g.secPerClus
  | [] => by simp [secsOf]
  | c :: cs => by
    rw [secsOf_cons, List.length_append, secsOf_length g cs, List.length_range', List.length_cons]
    ring

theorem secsOf_singleton (g : Geo) (c : Nat) :
    secsOf g [c] = List.range' (clusLba c g) g.secPerClus := by
  rw [secsOf_cons, secsOf, List.flatMap_nil, List.append_nil]

theorem Built.nil (f₀ : Vol) : Built f₀ f₀ [] [] [] :=
  ⟨Kept.refl f₀, by simp, by simp, trivial⟩

namespace Built

variable {f₀ f : Vol} {ws : List (Nat × Sector)} {ncs : List Nat} {out : Str}

variable (ht : Tree f₀.toGeo f₀.disk)

include ht

/-- `free_chain(newclus)`, whatever was built. -/
theorem release (h : Built f₀ f ws ncs out) {fuel : Nat} (hfuel : f₀.fatSz * 128 ≤ fuel) :
    ∃ f' vs, freeChain fuel (ncs.headD 0) f = some f' ∧ Kept f₀ f' (ws ++ vs) := by
  by_cases hne : ncs = []
  · have hpos := ht.geo.fatSz_pos
    obtain ⟨n, rfl⟩ : ∃ n, fuel = n + 1 := ⟨fuel - 1, by omega⟩
    subst hne
    exact ⟨f, [], freeChain_zero n f, by rw [List.append_nil]; exact h.toKept⟩
  · exact h.toKept.free ht hfuel (h.chain hne) h.free

/-- A cluster just allocated becomes the new last one. -/
theorem link {c : Nat} {f₁ : Vol} {vs : List (Nat × Sector)} (h : Built f₀ f ws ncs out)
    (hr : InRange f₀.toGeo c) (hc : Free f₀ c) (hz : fatEntry f₀.toGeo f.disk 0 c = 0)
    (hd : SetDone f c lastMark f₁ vs) (hk : Kept f₀ f₁ (ws ++ vs)) :
    ∃ f₂ us, (if ncs.headD 0 = 0 then (true, f₁) else fatSet (ncs.getLastD 0) c f₁) = (true, f₂) ∧
      Built f₀ f₂ (ws ++ vs ++ us) (ncs ++ [c]) out := by
  have hg : f.toGeo = f₀.toGeo := h.ran.geo
  have hg₁ : f₁.toGeo = f₀.toGeo := hk.ran.geo
  have ho : FatsOn f₀.toGeo f.disk := ht.fatsOn.congr h.sameOff.drive
  obtain ⟨f₂, us, hrun, hlink, hch₂⟩ := linkLast_spec hg ht.geo ho h.chain hr hz hd
  have hfree : ∀ x ∈ ncs ++ [c], Free f₀ x := by
    intro x hx
    rcases List.mem_append.mp hx with hx | hx
    · exact h.free x hx
    · rw [List.mem_singleton.mp hx]
      exact hc
  -- neither step writes into a cluster, so what the chain holds stays there
  have hkeep : ∀ {A : Nat → Prop} {d d' : Disk}, SameOff f₀.toGeo A (fun _ => False) d d' →
      Holds d (secsOf f₀.toGeo (ncs ++ [c])) out → Holds d' (secsOf f₀.toGeo (ncs ++ [c])) out :=
    fun hoff hh => hh.congr hoff.drive (posData_sameOff ht.geo hoff hch₂.2 (by simp))
  have hoff := hd.sameOff
  rw [hg] at hoff
  have hholds : Holds f₁.disk (secsOf f₀.toGeo (ncs ++ [c])) out := by
    refine hkeep hoff ?_
    rw [secsOf_append]
    exact h.holds.mono _
  refine ⟨f₂, us, hrun, ?_⟩
  rcases hlink with ⟨-, rfl, rfl⟩ | ⟨hne, hd₂⟩
  · exact ⟨by rw [List.append_nil]; exact hk, fun _ => hch₂, hfree, hholds⟩
  · have hoff₂ := hd₂.sameOff
    rw [hg₁] at hoff₂
    exact ⟨hk.set ht hd₂ (h.free _ (getLastD_mem hne)), fun _ => hch₂, hfree, hkeep hoff₂ hholds⟩

/-- The next sectors of the data go into the last cluster. -/
theorem fill {c : Nat} (h : Built f₀ f ws (ncs ++ [c]) out)
    (hfull : out.length = ncs.length * f₀.secPerClus * 512) (left : Str) :
    ∃ ok rest f' vs, writeClus f.secPerClus (clusLba c f.toGeo) left f = (ok, rest, f') ∧
      Built f₀ f' (ws ++ vs) (ncs ++ [c]) (if ok then out ++ left.take (f₀.secPerClus * 512)
        else []) ∧
      (ok = true → rest = left.drop (f₀.secPerClus * 512)) := by
  have hg : f.toGeo = f₀.toGeo := h.ran.geo
  rw [hg]
  have hch := h.chain (by simp)
  have hr : InRange f₀.toGeo c := hch.2 c (by simp)
  have hrd : Readable f.disk := ht.readable.congr h.sameOff.drive
  obtain ⟨ok, rest, f', vs, hrun, hran, hpos, hok⟩ :=
    writeClus_spec f₀.secPerClus (clusLba c f₀.toGeo) left f
  obtain ⟨hk, hoff⟩ := h.toKept.clus ht hran hr hpos (h.free c (by simp))
  refine ⟨ok, rest, f', vs, hrun, ⟨hk, fun _ => ?_, h.free, ?_⟩, fun h => (hok h).1⟩
  · exact hch.sameOff ht.geo hoff (by simp)
  · split
    next hok' =>
      have hnd := hch.1.nodup
      have hcn : ∀ x ∈ ncs, x ≠ c := fun x hx he => by
        rw [List.nodup_append] at hnd
        exact hnd.2.2 x hx c (by simp) he
      have hold : Holds f.disk (secsOf f₀.toGeo ncs) out := by
        have hh := h.holds
        rw [secsOf_append] at hh
        exact hh.cut (by rw [secsOf_length, hfull])
      have hold' := hold.congr hoff.drive (posData_sameOff ht.geo hoff
        (fun x hx => hch.2 x (by simp [hx])) hcn)
      rw [secsOf_append, secsOf_singleton]
      exact hold'.append (by rw [secsOf_length, hfull]) ((hok hok').2 hrd)
    next => exact (Holds.mono _ (show Holds f'.disk [] [] from trivial))

end Built

/-- **The first phase of `fat_write`**: either all of the data is in a chain of
clusters nobody owns, or nothing but such clusters was touched. -/
theorem writeChain_spec {f₀ : Vol} (ht : Tree f₀.toGeo f₀.disk) {fuel : Nat}
    (hfuel : f₀.fatSz * 128 ≤ fuel) : ∀ (k : Nat) (left out : Str) (ncs : List Nat) (f : Vol)
    (ws : List (Nat × Sector)), Built f₀ f ws ncs out → f₀.fatSz * 128 ≤ k + ncs.length →
    (left ≠ [] → out.length = ncs.length * f₀.secPerClus * 512) →
    ∃ res f' vs, writeChain fuel k left (ncs.headD 0) (ncs.getLastD 0) f = some (res, f') ∧
      (res = none ∧ Kept f₀ f' vs ∨
        ∃ ncs', res = some (ncs'.headD 0) ∧ Built f₀ f' vs ncs' (out ++ left))
  | 0, left, out, ncs, f, ws, hb, hk, _ => by
    have hne : ncs ≠ [] := by
      intro he
      subst he
      have := ht.geo.fatSz_pos
      simp only [List.length_nil] at hk
      omega
    have := (hb.chain hne).length_lt ht.geo
    omega
  | k + 1, left, out, ncs, f, ws, hb, hk, hfull => by
    rw [writeChain]
    by_cases hleft : left = []
    · rw [if_pos hleft, hleft, List.append_nil]
      exact ⟨_, f, ws, rfl, Or.inr ⟨ncs, rfl, hb⟩⟩
    · rw [if_neg hleft]
      -- every way out of the round releases what was built
      have hgive : ∀ {f : Vol} {ws : List (Nat × Sector)} {ncs : List Nat} {o : Str},
          Built f₀ f ws ncs o → ∃ res f' vs, giveUp fuel (ncs.headD 0) f = some (res, f') ∧
            (res = none ∧ Kept f₀ f' vs ∨
              ∃ ncs', res = some (ncs'.headD 0) ∧ Built f₀ f' vs ncs' (out ++ left)) := by
        intro f ws ncs o hb
        obtain ⟨f', vs, hfree, hk'⟩ := hb.release ht hfuel
        exact ⟨none, f', _, by rw [giveUp, hfree]; rfl, Or.inl ⟨rfl, hk'⟩⟩
      rcases hb.toKept.alloc ht with ⟨s, hs⟩ | ⟨c, f₁, vs, hrun, hr, hc, hz, hd, hk₁⟩
      · rw [hs]
        simp only [if_true]
        exact hgive ⟨hb.toKept.sec s, hb.chain, hb.free, hb.holds⟩
      · have hc0 : c ≠ 0 := by have := hr.1; omega
        obtain ⟨f₂, us, hlink, hb₂⟩ := hb.link ht hr hc hz hd hk₁
        obtain ⟨ok, rest, f₃, ts, hwr, hb₃, hrest⟩ := hb₂.fill ht (hfull hleft) left
        rw [hrun]
        simp only [if_neg hc0, hlink, head_link hb.chain, hwr]
        cases ok with
        | false => exact hgive hb₃
        | true =>
          have hlast : (ncs ++ [c]).getLastD 0 = c := by simp
          rw [hrest rfl]
          have hrec := writeChain_spec ht hfuel k (left.drop (f₀.secPerClus * 512))
            (out ++ left.take (f₀.secPerClus * 512)) (ncs ++ [c]) f₃ _ hb₃
            (by rw [List.length_append, List.length_singleton]; omega) (fun hne => by
              have hlt : f₀.secPerClus * 512 < left.length := by simpa using hne
              rw [List.length_append, hfull hleft, List.length_take, Nat.min_eq_left hlt.le,
                List.length_append, List.length_singleton]
              ring)
          rw [hlast, List.append_assoc, List.take_append_drop] at hrec
          exact hrec

end InaneOS.Fat
