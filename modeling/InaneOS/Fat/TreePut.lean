import InaneOS.Fat.Tree

/-!
# A file entry is stored in a slot

The third way `fat_write` moves between well-formed disks, and the only one a
reader can notice: the 32 bytes of one slot are replaced by a file entry. The
slot was free or held a file of the same name, no slot before it is a
terminator, and the chain the new entry points to is under no reference yet.
Everything else stays: the table (it lies elsewhere), every other entry (they
lie in other bytes), hence every chain and every other reference.
-/

namespace InaneOS.Fat

open InaneOS.Lib

/-- Slot `sl₀` of directory `r₀` gets a file entry in `d'`. -/
structure Put (g : Geo) (d d' : Disk) (r₀ : Option Slot) (sl₀ : Slot) : Prop where
  ref : Ref g d r₀
  dir : isDir d r₀ = true
  /-- The slot, with no terminator before it. -/
  slot : ∃ cs l₁ l₂, ClusChain g d (first g d r₀) cs ∧ slots g cs = l₁ ++ sl₀ :: l₂ ∧
    ∀ a ∈ l₁, ent d a 0 ≠ 0
  /-- What it held was no directory. -/
  old : Shown (ent d sl₀) → entIsDir (ent d sl₀) = false
  /-- No other child has the new entry's name. -/
  name : ∀ sl, Child g d r₀ sl → raw11 (ent d sl) = raw11 (ent d' sl₀) → sl = sl₀
  drive : d'.drive = d.drive
  here : ∀ l i, (l = sl₀.1 → i < sl₀.2 ∨ sl₀.2 + 32 ≤ i) → d'.data l i = d.data l i
  shown : Shown (ent d' sl₀)
  valid : ValidName (ent d' sl₀)
  file : entIsDir (ent d' sl₀) = false
  /-- The new chain, if there is one, is under no reference. -/
  new : entClus (ent d' sl₀) = 0 ∧ entSize (ent d' sl₀) = 0 ∨
    InRange g (entClus (ent d' sl₀)) ∧ ∃ ncs, ClusChain g d (entClus (ent d' sl₀)) ncs ∧
      ∀ x ∈ ncs, ¬ Owned g d x

/-! ## Slots of a chain are distinct -/

theorem secsOf_nodup {g : Geo} (hg : g.Ok) : ∀ {cs : List Nat}, (∀ x ∈ cs, InRange g x) →
    cs.Nodup → (secsOf g cs).Nodup
  | [], _, _ => List.nodup_nil
  | c :: cs, hin, hnd => by
    rw [show c :: cs = [c] ++ cs from rfl, secsOf_append, List.nodup_append]
    obtain ⟨hnot, hnd⟩ := List.nodup_cons.mp hnd
    refine ⟨?_, secsOf_nodup hg (fun x hx => hin x (List.mem_cons_of_mem _ hx)) hnd, ?_⟩
    · simp only [secsOf, List.flatMap_cons, List.flatMap_nil, List.append_nil]
      exact List.nodup_range.map fun a b hab => by simpa using hab
    · intro a ha b hb hab
      subst hab
      obtain ⟨x, hx, hp⟩ := mem_secsOf.mp ha
      obtain ⟨y, hy, hq⟩ := mem_secsOf.mp hb
      rw [List.mem_singleton.mp hx] at hp
      have hcy := posData_inj hg (hin c (by simp)) (hin y (List.mem_cons_of_mem _ hy)) hp hq
      exact hnot (hcy ▸ hy)

theorem flatMap_slots_nodup : ∀ {ls : List Nat}, ls.Nodup →
    (ls.flatMap fun l => (List.range 16).map fun i => (l, i * 32)).Nodup
  | [], _ => List.nodup_nil
  | l :: ls, h => by
    obtain ⟨hnot, hnd⟩ := List.nodup_cons.mp h
    rw [List.flatMap_cons, List.nodup_append]
    refine ⟨List.nodup_range.map fun a b hab => by simpa using hab, flatMap_slots_nodup hnd, ?_⟩
    intro a ha b hb hab
    subst hab
    simp only [List.mem_map, List.mem_flatMap] at ha hb
    obtain ⟨i, -, rfl⟩ := ha
    obtain ⟨l', hl', j, -, he⟩ := hb
    exact hnot (by rw [← (Prod.mk.inj he).1]; exact hl')

theorem slots_nodup {g : Geo} {d : Disk} (hg : g.Ok) {c : Nat} {cs : List Nat}
    (h : ClusChain g d c cs) : (slots g cs).Nodup :=
  flatMap_slots_nodup (secsOf_nodup hg h.2 h.1.nodup)

namespace Put

variable {g : Geo} {d d' : Disk} {r₀ : Option Slot} {sl₀ : Slot}
  (hp : Put g d d' r₀ sl₀) (ht : Tree g d)

include hp

theorem offset : ∃ i < 16, sl₀.2 = i * 32 := by
  obtain ⟨cs, l₁, l₂, -, hsl, -⟩ := hp.slot
  exact (mem_slots.mp (hsl ▸ by simp : sl₀ ∈ slots g cs)).2

/-- Another slot keeps its bytes. -/
theorem entEq {sl : Slot} (hoff : ∃ i < 16, sl.2 = i * 32) (hne : sl ≠ sl₀) :
    EntEq (ent d' sl) (ent d sl) := by
  intro i hi
  refine hp.here sl.1 (sl.2 + i) fun hl => ?_
  obtain ⟨j, -, hj⟩ := hoff
  obtain ⟨j₀, -, hj₀⟩ := hp.offset
  have hjj : j ≠ j₀ := fun h => hne (Prod.ext hl (by rw [hj, hj₀, h]))
  omega

/-- The slot lies in a cluster of its directory. -/
theorem slot_posData : ∃ cs c, ClusChain g d (first g d r₀) cs ∧ c ∈ cs ∧ PosData g c sl₀.1 := by
  obtain ⟨cs, l₁, l₂, hcs, hsl, -⟩ := hp.slot
  have hmem : sl₀ ∈ slots g cs := by rw [hsl]; simp
  obtain ⟨c, hc, hpos⟩ := mem_secsOf.mp (mem_slots.mp hmem).1
  exact ⟨cs, c, hcs, hc, hpos⟩

theorem ent_eq {sl : Slot} (h : Ref g d (some sl)) (hne : sl ≠ sl₀) :
    EntEq (ent d' sl) (ent d sl) := by
  obtain ⟨r, cs, -, -, -, hsl, -⟩ := h.owned_slot
  exact hp.entEq (mem_slots.mp hsl).2 hne

theorem first_eq {r : Option Slot} (h : Ref g d r) (hne : r ≠ some sl₀) :
    first g d' r = first g d r := by
  cases r with
  | none => rfl
  | some sl => exact (hp.ent_eq h fun he => hne (by rw [he])).clus

theorem isDir_eq {r : Option Slot} (h : Ref g d r) (hne : r ≠ some sl₀) :
    isDir d' r = isDir d r := by
  cases r with
  | none => rfl
  | some sl => exact (hp.ent_eq h fun he => hne (by rw [he])).isDir

/-- If the slot was referenced before, it was as a file. -/
theorem old_file (h : Ref g d (some sl₀)) : isDir d (some sl₀) = false := by
  obtain ⟨r, cs, -, -, -, -, hsh⟩ := h.owned_slot
  exact hp.old hsh

theorem r₀_ne : r₀ ≠ some sl₀ := by
  intro h
  have hfile := hp.old_file (h ▸ hp.ref)
  have hdir := hp.dir
  rw [h, hfile] at hdir
  exact absurd hdir (by simp)

include ht

theorem entry_eq {k c : Nat} (hk : k < g.numFats) (hc : c < g.fatSz * 128) :
    fatEntry g d' k c = fatEntry g d k c := by
  obtain ⟨cs, x, hcs, hx, hpos⟩ := hp.slot_posData
  refine rd32_congr fun i _ _ => hp.here _ _ fun hl => ?_
  have h1 := posData_ge ht.geo (hcs.2 x hx) hpos
  have h2 := fatLba_lt ht.geo hk hc
  omega

theorem chain_iff {c : Nat} {cs : List Nat} : ClusChain g d' c cs ↔ ClusChain g d c cs := by
  have hlink : ∀ x, InRange g x → link g d' x = link g d x := fun x hx => by
    unfold link
    rw [hp.entry_eq ht ht.geo.fats_pos hx.2]
  exact ⟨fun h => ⟨h.1.congr fun x hx => (hlink x (h.2 x hx)).symm, h.2⟩,
    fun h => ⟨h.1.congr fun x hx => hlink x (h.2 x hx), h.2⟩⟩

/-- The slot belongs to no other directory. -/
theorem slot_only {r : Option Slot} (hr : Ref g d r) {cs : List Nat}
    (hcs : ClusChain g d (first g d r) cs) (hl : sl₀.1 ∈ secsOf g cs) : r = r₀ := by
  by_contra hne
  obtain ⟨cs₀, c, hcs₀, hc, hpos⟩ := hp.slot_posData
  obtain ⟨x, hx, hpos'⟩ := mem_secsOf.mp hl
  have hxc := posData_inj ht.geo (hcs.2 x hx) (hcs₀.2 c hc) hpos' hpos
  exact ht.disj r r₀ cs cs₀ hr hp.ref hne hcs hcs₀ (hxc ▸ hx) hc

/-- The sectors of everything but `r₀` are unchanged. -/
theorem sector_eq {r : Option Slot} (hr : Ref g d r) (hne : r ≠ r₀) {cs : List Nat}
    (hcs : ClusChain g d (first g d r) cs) : ∀ l ∈ secsOf g cs, d'.data l = d.data l := by
  intro l hl
  funext i
  refine hp.here l i fun he => ?_
  exact absurd (hp.slot_only ht hr hcs (he ▸ hl)) hne

theorem child_slot : Child g d' r₀ sl₀ := by
  obtain ⟨cs, l₁, l₂, hcs, hsl, -⟩ := hp.slot
  refine ⟨by rw [hp.isDir_eq hp.ref hp.r₀_ne]; exact hp.dir, cs, ?_, by rw [hsl]; simp,
    hp.shown⟩
  rw [hp.first_eq hp.ref hp.r₀_ne, hp.chain_iff ht]
  exact hcs

theorem child_iff {r : Option Slot} (hr : Ref g d r) (hne : r ≠ some sl₀) {sl : Slot}
    (hsl : sl ≠ sl₀) : Child g d' r sl ↔ Child g d r sl := by
  unfold Child
  rw [hp.isDir_eq hr hne, hp.first_eq hr hne]
  refine and_congr_right fun _ => exists_congr fun cs => ?_
  rw [hp.chain_iff ht]
  refine and_congr_right fun _ => and_congr_right fun hmem => ?_
  exact (hp.entEq (mem_slots.mp hmem).2 hsl).shown

/-- The only directory in which the slot is a child. -/
theorem child_only {r : Option Slot} (hr : Ref g d r) (hne : r ≠ some sl₀)
    (h : Child g d' r sl₀) : r = r₀ := by
  obtain ⟨-, cs, hcs, hsl, -⟩ := h
  rw [hp.first_eq hr hne, hp.chain_iff ht] at hcs
  exact hp.slot_only ht hr hcs (mem_slots.mp hsl).1

theorem ref_inv {r : Option Slot} (h : Ref g d' r) : Ref g d r ∨ r = some sl₀ := by
  induction h with
  | root => exact Or.inl Ref.root
  | @entry r sl _ hc ih =>
    by_cases hsl : sl = sl₀
    · exact Or.inr (by rw [hsl])
    · left
      have hne : r ≠ some sl₀ := by
        intro he
        subst he
        exact absurd hc.1 (by rw [show isDir d' (some sl₀) = false from hp.file]; simp)
      have hr : Ref g d r := ih.resolve_right hne
      exact Ref.entry hr ((hp.child_iff ht hr hne hsl).mp hc)

/-- References other than the slot are the old ones. -/
theorem ref_of {r : Option Slot} (h : Ref g d r) : r ≠ some sl₀ → Ref g d' r := by
  induction h with
  | root => exact fun _ => Ref.root
  | @entry r sl hr hc ih =>
    intro hne
    have hrne : r ≠ some sl₀ := by
      intro he
      subst he
      exact absurd hc.1 (by rw [hp.old_file hr]; simp)
    exact Ref.entry (ih hrne) ((hp.child_iff ht hr hrne fun h => hne (by rw [h])).mpr hc)

/-- A directory afterwards was a directory before, with the same chain. -/
theorem dir_inv {r : Option Slot} (h : Ref g d' r) (hd : isDir d' r = true) :
    Ref g d r ∧ r ≠ some sl₀ ∧ isDir d r = true ∧ first g d' r = first g d r := by
  have hne : r ≠ some sl₀ := by
    intro he
    subst he
    exact absurd hd (by rw [show isDir d' (some sl₀) = false from hp.file]; simp)
  have hr := (hp.ref_inv ht h).resolve_right hne
  rw [hp.isDir_eq hr hne] at hd
  exact ⟨hr, hne, hd, hp.first_eq hr hne⟩

/-- The chain of the new entry meets no other reference's. -/
theorem new_disjoint {r : Option Slot} (hr : Ref g d r) {cs ncs : List Nat}
    (hcs : ClusChain g d (first g d r) cs) (hn : ClusChain g d' (first g d' (some sl₀)) ncs) :
    cs.Disjoint ncs := by
  rw [hp.chain_iff ht] at hn
  change ClusChain g d (entClus (ent d' sl₀)) ncs at hn
  rcases hp.new with ⟨h0, -⟩ | ⟨-, ncs', hncs', hfree⟩
  · rw [h0] at hn
    exact (chain_zero hn).elim
  · rw [hn.unique hncs']
    exact fun x hx hx' => hfree x hx' ⟨r, cs, hr, hcs, hx⟩

/-- No entry comes behind a terminator: none stands before the slot, and those behind it
stay last. -/
theorem clean {r : Option Slot} {cs : List Nat} (hr : Ref g d r) (hd : isDir d r = true)
    (hcs : ClusChain g d (first g d r) cs) :
    (slots g cs).Pairwise fun a b => ent d' a 0 = 0 → ent d' b 0 = 0 := by
  have hold := ht.clean r cs hr hd hcs
  have hother : ∀ a ∈ slots g cs, a ≠ sl₀ → ent d' a 0 = ent d a 0 := fun a ha hne =>
    hp.entEq (mem_slots.mp ha).2 hne 0 (by omega)
  have hnz : ent d' sl₀ 0 ≠ 0 := shown_ne_zero hp.shown
  by_cases hmem : sl₀ ∈ slots g cs
  · -- no terminator lies before the slot, so the ones after it stay last
    have hrr := hp.slot_only ht hr hcs (mem_slots.mp hmem).1
    subst hrr
    obtain ⟨cs', l₁, l₂, hcs', hsl, hbef⟩ := hp.slot
    rw [← hcs.unique hcs'] at hsl
    have hnd := slots_nodup ht.geo hcs
    rw [hsl] at hold hother hnd ⊢
    have hn₁ : ∀ a ∈ l₁, a ≠ sl₀ := fun a ha he => by
      rw [List.nodup_append] at hnd
      exact hnd.2.2 a ha sl₀ (by simp) he
    have hn₂ : ∀ a ∈ l₂, a ≠ sl₀ := fun a ha he => by
      rw [List.nodup_append] at hnd
      exact (List.nodup_cons.mp hnd.2.1).1 (he ▸ ha)
    rw [List.pairwise_append, List.pairwise_cons] at hold ⊢
    obtain ⟨h₁, ⟨-, h₂⟩, -⟩ := hold
    have hne₁ : ∀ a ∈ l₁, ent d' a 0 ≠ 0 := fun a ha => by
      rw [hother a (by simp [ha]) (hn₁ a ha)]
      exact hbef a ha
    refine ⟨List.pairwise_of_forall_mem_list fun a ha b _ h => absurd h (hne₁ a ha),
      ⟨fun b _ h => absurd h hnz, ?_⟩, fun a ha b _ h => absurd h (hne₁ a ha)⟩
    refine h₂.imp_of_mem fun ha hb hab => ?_
    rwa [hother _ (by simp [ha]) (hn₂ _ ha), hother _ (by simp [hb]) (hn₂ _ hb)]
  · refine hold.imp_of_mem fun ha hb hab => ?_
    rwa [hother _ ha fun h => hmem (h ▸ ha), hother _ hb fun h => hmem (h ▸ hb)]

/-- Two children of a directory have different names. -/
theorem uniq {r : Option Slot} {a b : Slot} (hr : Ref g d' r) (ha : Child g d' r a)
    (hb : Child g d' r b) (hab : raw11 (ent d' a) = raw11 (ent d' b)) : a = b := by
  obtain ⟨hr, hne, -, -⟩ := hp.dir_inv ht hr ha.1
  by_cases ha₀ : a = sl₀
  · by_cases hb₀ : b = sl₀
    · rw [ha₀, hb₀]
    · subst ha₀
      have hrr := hp.child_only ht hr hne ha
      have hb' := (hp.child_iff ht hr hne hb₀).mp hb
      rw [(hp.ent_eq (Ref.entry hr hb') hb₀).raw11] at hab
      exact (hp.name b (hrr ▸ hb') hab.symm).symm
  · by_cases hb₀ : b = sl₀
    · subst hb₀
      have hrr := hp.child_only ht hr hne hb
      have ha' := (hp.child_iff ht hr hne ha₀).mp ha
      rw [(hp.ent_eq (Ref.entry hr ha') ha₀).raw11] at hab
      exact hp.name a (hrr ▸ ha') hab
    · have ha' := (hp.child_iff ht hr hne ha₀).mp ha
      have hb' := (hp.child_iff ht hr hne hb₀).mp hb
      rw [(hp.ent_eq (Ref.entry hr ha') ha₀).raw11,
        (hp.ent_eq (Ref.entry hr hb') hb₀).raw11] at hab
      exact ht.uniq r a b hr ha' hb' hab

/-- Two chains have no cluster in common. -/
theorem disj {r r' : Option Slot} {cs cs' : List Nat} (hr : Ref g d' r) (hr' : Ref g d' r')
    (hne : r ≠ r') (hcs : ClusChain g d' (first g d' r) cs)
    (hcs' : ClusChain g d' (first g d' r') cs') : cs.Disjoint cs' := by
  by_cases h₀ : r = some sl₀
  · by_cases h₀' : r' = some sl₀
    · exact absurd (h₀.trans h₀'.symm) hne
    · have hr'' := (hp.ref_inv ht hr').resolve_right h₀'
      rw [hp.first_eq hr'' h₀', hp.chain_iff ht] at hcs'
      subst h₀
      exact fun x hx hx' => hp.new_disjoint ht hr'' hcs' hcs hx' hx
  · have hr₁ := (hp.ref_inv ht hr).resolve_right h₀
    rw [hp.first_eq hr₁ h₀, hp.chain_iff ht] at hcs
    by_cases h₀' : r' = some sl₀
    · subst h₀'
      exact hp.new_disjoint ht hr₁ hcs hcs'
    · have hr₂ := (hp.ref_inv ht hr').resolve_right h₀'
      rw [hp.first_eq hr₂ h₀', hp.chain_iff ht] at hcs'
      exact ht.disj r r' cs cs' hr₁ hr₂ hne hcs hcs'

/-- **The tree with the entry in its slot** is sound again. -/
theorem tree : Tree g d' := by
  refine ⟨ht.geo, ht.fatsOn.congr hp.drive, ht.readable.congr hp.drive,
    fun r hr hd => ?_, fun sl hr hd => ?_, fun r hr hin => ?_,
    fun r cs hr hd hcs l hl => ?_, fun r cs hr hd hcs => ?_, fun sl hr => ?_,
    fun r a b hr ha hb hab => hp.uniq ht hr ha hb hab,
    fun r r' cs cs' hr hr' hne hcs hcs' => hp.disj ht hr hr' hne hcs hcs'⟩
  · obtain ⟨hr, -, hd, hf⟩ := hp.dir_inv ht hr hd
    rw [hf]
    exact ht.dirIn r hr hd
  · by_cases hsl : sl = sl₀
    · subst hsl
      rcases hp.new with h | h
      · exact Or.inr h
      · exact Or.inl h.1
    · have hr' := (hp.ref_inv ht hr).resolve_right fun h => hsl (Option.some.inj h)
      have he := hp.ent_eq hr' hsl
      rw [hp.isDir_eq hr' fun h => hsl (Option.some.inj h)] at hd
      rw [he.clus, he.size]
      exact ht.fileIn sl hr' hd
  · by_cases hsl : r = some sl₀
    · subst hsl
      rcases hp.new with ⟨h0, -⟩ | ⟨-, ncs, hncs, -⟩
      · have h2 : InRange g 0 := h0 ▸ hin
        exact absurd h2.1 (by omega)
      · exact ⟨ncs, (hp.chain_iff ht).mpr hncs⟩
    · have hr' := (hp.ref_inv ht hr).resolve_right hsl
      rw [hp.first_eq hr' hsl] at hin ⊢
      obtain ⟨cs, hcs⟩ := ht.chain r hr' hin
      exact ⟨cs, (hp.chain_iff ht).mpr hcs⟩
  · obtain ⟨hr, -, hd, hf⟩ := hp.dir_inv ht hr hd
    rw [hf, hp.chain_iff ht] at hcs
    rw [hp.drive]
    exact ht.onDisk r cs hr hd hcs l hl
  · obtain ⟨hr, -, hd, hf⟩ := hp.dir_inv ht hr hd
    rw [hf, hp.chain_iff ht] at hcs
    exact hp.clean ht hr hd hcs
  · by_cases hsl : sl = sl₀
    · rw [hsl]
      exact hp.valid
    · have hr' := (hp.ref_inv ht hr).resolve_right fun h => hsl (Option.some.inj h)
      exact (hp.ent_eq hr' hsl).valid.mpr (ht.valid sl hr')

/-- A reader sees no difference but at the slot. -/
theorem view : View g d d' (· = sl₀) := by
  refine ⟨hp.drive, fun r hr hx sl hsl => hp.child_iff ht hr (fun h => hx sl₀ h rfl) hsl,
    fun sl hr hsl => hp.ent_eq hr hsl, fun sl hr hsl hd cs hcs =>
      ⟨(hp.chain_iff ht).mpr hcs, hp.sector_eq ht hr (fun h => ?_) hcs⟩⟩
  have hdir := hp.dir
  rw [← h, hd] at hdir
  exact absurd hdir (by simp)

/-- The chain the slot pointed to before is owned by nobody afterwards. -/
theorem old_free (hr : Ref g d (some sl₀)) {cs : List Nat}
    (hcs : ClusChain g d (entClus (ent d sl₀)) cs) {x : Nat} (hx : x ∈ cs) : ¬ Owned g d' x := by
  intro h
  obtain ⟨r, cs', hr', hcs', hx'⟩ := h
  by_cases h₀ : r = some sl₀
  · subst h₀
    exact hp.new_disjoint ht hr hcs hcs' hx hx'
  · have hr₁ := (hp.ref_inv ht hr').resolve_right h₀
    rw [hp.first_eq hr₁ h₀, hp.chain_iff ht] at hcs'
    exact ht.disj r (some sl₀) cs' cs hr₁ hr h₀ hcs' hcs hx' hx

end Put

end InaneOS.Fat
