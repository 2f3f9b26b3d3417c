import InaneOS.Fat.Tree

/-!
# A directory grows by one cluster

The second way `fat_write` moves between well-formed disks: `dir_slot` links a
zero-filled cluster behind the last one of a directory. On the disk the change
is one table entry, the directory's chain becomes one longer, and a reader
notices nothing, because every slot of the new cluster is a terminator.
-/

namespace InaneOS.Fat

open InaneOS.Lib

/-- Directory `r₀`, whose chain in `d` is `l ++ [t]`, gets the cluster `nc` in `d'`. -/
structure Grow (g : Geo) (d d' : Disk) (r₀ : Option Slot) (l : List Nat) (t nc : Nat) : Prop where
  ref : Ref g d r₀
  dir : isDir d r₀ = true
  chain : ClusChain g d (first g d r₀) (l ++ [t])
  free : ¬ Owned g d nc
  inRange : InRange g nc
  mark : eoc ≤ link g d nc
  zero : ∀ s, PosData g nc s → d.drive.Works s ∧ ∀ i, d.data s i = 0
  off : SameOff g (· = t) (fun _ => False) d d'
  linked : fatEntry g d' 0 t = nc

namespace Grow

variable {g : Geo} {d d' : Disk} {r₀ : Option Slot} {l : List Nat} {t nc : Nat}
  (hw : Grow g d d' r₀ l t nc) (ht : Tree g d)

theorem slots_grown : slots g (l ++ [t, nc]) = slots g (l ++ [t]) ++ slots g [nc] := by
  rw [← slots_append, List.append_assoc]
  rfl

include hw

theorem t_ne : t ≠ nc := fun h => hw.free ⟨r₀, _, hw.ref, hw.chain, by rw [← h]; simp⟩

include ht

theorem sector_eq {cs : List Nat} (hin : ∀ x ∈ cs, InRange g x) :
    ∀ s ∈ secsOf g cs, d'.data s = d.data s :=
  posData_sameOff ht.geo hw.off hin fun _ _ h => h

/-- The chain of every other reference misses the redirected entry. -/
theorem chain_other {r : Option Slot} (hr : Ref g d r) (hne : r ≠ r₀) {cs : List Nat}
    (hcs : ClusChain g d (first g d r) cs) : ClusChain g d' (first g d r) cs :=
  hcs.sameOff ht.geo hw.off fun x hx hxt =>
    ht.disj r r₀ cs _ hr hw.ref hne hcs hw.chain hx (by rw [hxt]; simp)

theorem chain_grown : ClusChain g d' (first g d r₀) (l ++ [t, nc]) := by
  have hnclt := hw.inRange.lt_eoc ht.geo
  have hnd : t ∉ l := by
    have hnodup := hw.chain.1.nodup
    rw [List.nodup_append] at hnodup
    exact fun h => hnodup.2.2 t h t (by simp) rfl
  refine ⟨hw.chain.1.extend l (fun x hx => ?_) ?_ (Nat.not_le.mpr hnclt) ?_, fun x hx => ?_⟩
  · exact hw.off.link ht.geo (hw.chain.2 x (by simp [hx])).2 fun _ h => hnd (h ▸ hx)
  · exact link_of_entry hw.linked (by unfold eoc at hnclt; omega)
  · show eoc ≤ link g d' nc
    rw [hw.off.link ht.geo hw.inRange.2 fun _ h => hw.t_ne h.symm]
    exact hw.mark
  · simp only [List.mem_append, List.mem_cons, List.not_mem_nil, or_false] at hx
    rcases hx with hx | rfl | rfl
    · exact hw.chain.2 x (by simp [hx])
    · exact hw.chain.2 x (by simp)
    · exact hw.inRange

theorem ent_eq {sl : Slot} (h : Ref g d (some sl)) : ent d' sl = ent d sl := by
  obtain ⟨r, cs, hr, hd, hcs, hsl, -⟩ := h.owned_slot
  unfold ent
  rw [hw.sector_eq ht hcs.2 _ (mem_slots.mp hsl).1]

theorem first_eq {r : Option Slot} (h : Ref g d r) : first g d' r = first g d r := by
  cases r with
  | none => rfl
  | some sl => rw [first, first, hw.ent_eq ht h]

theorem isDir_eq {r : Option Slot} (h : Ref g d r) : isDir d' r = isDir d r := by
  cases r with
  | none => rfl
  | some sl => rw [isDir, isDir, hw.ent_eq ht h]

/-- The chain of a reference afterwards: one longer for `r₀`. -/
theorem chain_inv {r : Option Slot} (hr : Ref g d r) {cs' : List Nat}
    (h : ClusChain g d' (first g d' r) cs') :
    r ≠ r₀ ∧ ClusChain g d (first g d r) cs' ∨ r = r₀ ∧ cs' = l ++ [t, nc] := by
  rw [hw.first_eq ht hr] at h
  by_cases hrr : r = r₀
  · subst hrr
    exact Or.inr ⟨rfl, h.unique (hw.chain_grown ht)⟩
  · refine Or.inl ⟨hrr, ?_⟩
    rcases ht.firstIn hr with hin | h0
    · obtain ⟨cs, hcs⟩ := ht.chain r hr hin
      rw [h.unique (hw.chain_other ht hr hrr hcs)]
      exact hcs
    · rw [h0] at h
      exact (chain_zero h).elim

/-- Every slot of the new cluster is a terminator. -/
theorem new_zero {sl : Slot} (h : sl ∈ slots g [nc]) : ent d' sl 0 = 0 := by
  have hs := (mem_slots.mp h).1
  have hin : ∀ x ∈ [nc], InRange g x := fun x hx => by
    rw [List.mem_singleton.mp hx]
    exact hw.inRange
  obtain ⟨c, hc, hp⟩ := mem_secsOf.mp hs
  rw [List.mem_singleton.mp hc] at hp
  show d'.data sl.1 (sl.2 + 0) = 0
  rw [hw.sector_eq ht hin _ hs]
  exact (hw.zero _ hp).2 _

theorem child_iff {r : Option Slot} (hr : Ref g d r) {sl : Slot} :
    Child g d' r sl ↔ Child g d r sl := by
  constructor
  · intro h
    obtain ⟨hd, cs', hcs', hsl, hsh⟩ := h
    rw [hw.isDir_eq ht hr] at hd
    rcases hw.chain_inv ht hr hcs' with ⟨-, hcs⟩ | ⟨rfl, rfl⟩
    · refine ⟨hd, cs', hcs, hsl, ?_⟩
      unfold ent at hsh ⊢
      rwa [hw.sector_eq ht hcs.2 _ (mem_slots.mp hsl).1] at hsh
    · rw [slots_grown] at hsl
      rcases List.mem_append.mp hsl with hsl | hsl
      · refine ⟨hd, _, hw.chain, hsl, ?_⟩
        unfold ent at hsh ⊢
        rwa [hw.sector_eq ht hw.chain.2 _ (mem_slots.mp hsl).1] at hsh
      · exact absurd (hw.new_zero ht hsl) (shown_ne_zero hsh)
  · intro h
    obtain ⟨hd, cs, hcs, hsl, hsh⟩ := h
    have hsh' : Shown (ent d' sl) := by
      unfold ent at hsh ⊢
      rwa [hw.sector_eq ht hcs.2 _ (mem_slots.mp hsl).1]
    refine ⟨by rwa [hw.isDir_eq ht hr], ?_⟩
    rw [hw.first_eq ht hr]
    by_cases hrr : r = r₀
    · subst hrr
      refine ⟨_, hw.chain_grown ht, ?_, hsh'⟩
      rw [slots_grown, ← hcs.unique hw.chain]
      exact List.mem_append_left _ hsl
    · exact ⟨cs, hw.chain_other ht hr hrr hcs, hsl, hsh'⟩

theorem ref_iff {r : Option Slot} : Ref g d' r ↔ Ref g d r := by
  constructor
  · intro h
    induction h with
    | root => exact Ref.root
    | entry _ hc ih => exact Ref.entry ih ((hw.child_iff ht ih).mp hc)
  · intro h
    induction h with
    | root => exact Ref.root
    | entry hr hc ih => exact Ref.entry ih ((hw.child_iff ht hr).mpr hc)

/-- The new cluster is under no reference but `r₀`. -/
theorem disjoint_new {r : Option Slot} (hr : Ref g d r) (hne : r ≠ r₀) {cs : List Nat}
    (hcs : ClusChain g d (first g d r) cs) : cs.Disjoint (l ++ [t, nc]) := by
  intro x hx hx'
  have hold := ht.disj r r₀ cs _ hr hw.ref hne hcs hw.chain hx
  rw [show l ++ [t, nc] = (l ++ [t]) ++ [nc] by simp] at hx'
  rcases List.mem_append.mp hx' with h | h
  · exact hold h
  · exact hw.free ⟨r, cs, hr, hcs, by rw [← List.mem_singleton.mp h]; exact hx⟩

/-- **The grown directory** is part of a sound tree again. -/
theorem tree : Tree g d' := by
  refine ⟨ht.geo, ht.fatsOn.congr hw.off.drive, ht.readable.congr hw.off.drive,
    fun r hr hd => ?_, fun sl hr hd => ?_, fun r hr hin => ?_,
    fun r cs hr hd hcs s hs => ?_, fun r cs hr hd hcs => ?_, fun sl hr => ?_,
    fun r a b hr ha hb hab => ?_, fun r r' cs cs' hr hr' hne hcs hcs' => ?_⟩
  · rw [hw.ref_iff ht] at hr
    rw [hw.isDir_eq ht hr] at hd
    rw [hw.first_eq ht hr]
    exact ht.dirIn r hr hd
  · rw [hw.ref_iff ht] at hr
    rw [hw.isDir_eq ht hr] at hd
    rw [hw.ent_eq ht hr]
    exact ht.fileIn sl hr hd
  · rw [hw.ref_iff ht] at hr
    rw [hw.first_eq ht hr] at hin ⊢
    by_cases hrr : r = r₀
    · subst hrr
      exact ⟨_, hw.chain_grown ht⟩
    · obtain ⟨cs, hcs⟩ := ht.chain r hr hin
      exact ⟨cs, hw.chain_other ht hr hrr hcs⟩
  · rw [hw.ref_iff ht] at hr
    rw [hw.isDir_eq ht hr] at hd
    rw [hw.off.drive]
    rcases hw.chain_inv ht hr hcs with ⟨-, hcs⟩ | ⟨rfl, rfl⟩
    · exact ht.onDisk r cs hr hd hcs s hs
    · rw [show l ++ [t, nc] = (l ++ [t]) ++ [nc] by simp, secsOf_append] at hs
      rcases List.mem_append.mp hs with hs | hs
      · exact ht.onDisk r _ hr hd hw.chain s hs
      · obtain ⟨c, hc, hp⟩ := mem_secsOf.mp hs
        rw [List.mem_singleton.mp hc] at hp
        exact (hw.zero s hp).1
  · rw [hw.ref_iff ht] at hr
    rw [hw.isDir_eq ht hr] at hd
    have hold : ∀ cs, ClusChain g d (first g d r) cs →
        (slots g cs).Pairwise fun a b => ent d' a 0 = 0 → ent d' b 0 = 0 := by
      intro cs hcs
      have hent : ∀ a ∈ slots g cs, ent d' a = ent d a := fun a ha => by
        unfold ent
        rw [hw.sector_eq ht hcs.2 _ (mem_slots.mp ha).1]
      refine (ht.clean r cs hr hd hcs).imp_of_mem fun ha hb hab => ?_
      rwa [hent _ ha, hent _ hb]
    rcases hw.chain_inv ht hr hcs with ⟨-, hcs⟩ | ⟨rfl, rfl⟩
    · exact hold cs hcs
    · rw [slots_grown, List.pairwise_append]
      refine ⟨hold _ hw.chain, ?_, fun a _ b hb _ => hw.new_zero ht hb⟩
      exact List.pairwise_of_forall_mem_list fun a _ b hb _ => hw.new_zero ht hb
  · rw [hw.ref_iff ht] at hr
    rw [hw.ent_eq ht hr]
    exact ht.valid sl hr
  · rw [hw.ref_iff ht] at hr
    have ha' := (hw.child_iff ht hr).mp ha
    have hb' := (hw.child_iff ht hr).mp hb
    rw [hw.ent_eq ht (Ref.entry hr ha'), hw.ent_eq ht (Ref.entry hr hb')] at hab
    exact ht.uniq r a b hr ha' hb' hab
  · rw [hw.ref_iff ht] at hr hr'
    rcases hw.chain_inv ht hr hcs with ⟨hrr, hcs⟩ | ⟨rfl, rfl⟩
    · rcases hw.chain_inv ht hr' hcs' with ⟨-, hcs'⟩ | ⟨rfl, rfl⟩
      · exact ht.disj r r' cs cs' hr hr' hne hcs hcs'
      · exact hw.disjoint_new ht hr hrr hcs
    · rcases hw.chain_inv ht hr' hcs' with ⟨hrr', hcs'⟩ | ⟨rfl, rfl⟩
      · exact fun x hx hx' => hw.disjoint_new ht hr' hrr' hcs' hx' hx
      · exact absurd rfl hne

/-- A reader sees no difference. -/
theorem view : View g d d' fun _ => False := by
  refine ⟨hw.off.drive, fun r hr _ sl _ => hw.child_iff ht hr, fun sl hr _ i _ => ?_,
    fun sl hr _ hd cs hcs => ⟨?_, hw.sector_eq ht hcs.2⟩⟩
  · rw [hw.ent_eq ht hr]
  · refine hw.chain_other ht hr (fun h => ?_) hcs
    rw [h, hw.dir] at hd
    exact absurd hd (by simp)

/-- One more cluster is owned. -/
theorem owned {c : Nat} (h : Owned g d' c) : Owned g d c ∨ c = nc := by
  obtain ⟨r, cs, hr, hcs, hc⟩ := h
  rw [hw.ref_iff ht] at hr
  rcases hw.chain_inv ht hr hcs with ⟨-, hcs⟩ | ⟨rfl, rfl⟩
  · exact Or.inl ⟨r, cs, hr, hcs, hc⟩
  · rw [show l ++ [t, nc] = (l ++ [t]) ++ [nc] by simp] at hc
    rcases List.mem_append.mp hc with hc | hc
    · exact Or.inl ⟨r, _, hw.ref, hw.chain, hc⟩
    · exact Or.inr (List.mem_singleton.mp hc)

end Grow

end InaneOS.Fat
