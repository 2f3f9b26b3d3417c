import InaneOS.Lib.Radix
import InaneOS.Mem.Vmm

/-!
# The page tables as a tree

`tables` reads the entries as links: an entry of the three upper levels leads to a
table when it is present, except that a directory entry with bit 0x80 is a 2 MB page.
Pages are counted from 0; `path v d` is the way to the table of page `v` at depth
`d` (0 for `pml4`, 3 for the page table).

`pte m v` is the entry that decides what page `v` is mapped to, with a 2 MB page read
as the 512 entries `split_large` would make of it. `vmm_phys` only depends on it
(`vmmPhys_eq`), and adding a table changes it nowhere (`pte_link`): that is the sense
in which splitting a page is invisible.
-/

namespace InaneOS.Mem

open InaneOS.Lib

/-- Where an entry at depth `d` leads. -/
def tables : Radix Nat Nat where
  width := 512
  next d e := if d < 3 ∧ present e ∧ ¬ (d = 2 ∧ large e) then some (e / 4096) else none

/-- The table at a path. -/
def Mach.node (m : Mach) (p : List Nat) : Option Nat := tables.node m.mem m.pml4 p

/-- The frame is in use as a page table. -/
def IsTable (m : Mach) (f : Nat) : Prop := ∃ p, m.node p = some f

/-- The index of page `v` in its table at depth `d`. -/
def pageIdx (v d : Nat) : Nat := v / 512 ^ (3 - d) % 512

def path (v : Nat) : Nat → List Nat
  | 0 => []
  | d + 1 => pageIdx v d :: path v d

theorem next_some {d e f : Nat} (h : tables.next d e = some f) :
    d < 3 ∧ present e ∧ ¬ (d = 2 ∧ large e) ∧ e / 4096 = f := by
  unfold tables at h
  dsimp only at h
  split at h
  · next hd => exact ⟨hd.1, hd.2.1, hd.2.2, Option.some.inj h⟩
  · exact absurd h (by simp)

theorem next_of_present {d e : Nat} (hd : d < 3) (hp : present e) (hl : ¬ (d = 2 ∧ large e)) :
    tables.next d e = some (e / 4096) :=
  if_pos ⟨hd, hp, hl⟩

theorem next_of_not_present {d e : Nat} (hp : ¬ present e) : tables.next d e = none :=
  if_neg fun h => hp h.2.1

theorem next_of_large {e : Nat} (hl : large e) : tables.next 2 e = none :=
  if_neg fun h => h.2.2 ⟨rfl, hl⟩

theorem next_leaf {d e : Nat} (hd : 3 ≤ d) : tables.next d e = none :=
  if_neg fun h => absurd h.1 (by omega)

theorem pageIdx_lt (v d : Nat) : pageIdx v d < 512 := Nat.mod_lt _ (by omega)

theorem path_length (v : Nat) : ∀ d, (path v d).length = d
  | 0 => rfl
  | d + 1 => by rw [path, List.length_cons, path_length v d]

/-- The address's own index at a level is the page's index at the depth. -/
theorem tableIdx_page (v o : Nat) (ho : o < 4096) {level d : Nat} (h : level + d = 3) :
    tableIdx level (v * 4096 + o) = pageIdx v d := by
  have hd : (v * 4096 + o) / 4096 = v := by omega
  have hpow : 2 ^ (12 + 9 * level) = 4096 * 512 ^ level := by
    rw [Nat.pow_add, Nat.pow_mul]
  rw [tableIdx, pageIdx, hpow, ← Nat.div_div_eq_div_mul, hd, show 3 - d = level by omega]

theorem tableIdx_zero (v : Nat) {level d : Nat} (h : level + d = 3) :
    tableIdx level (v * 4096) = pageIdx v d := by
  have hidx := tableIdx_page v 0 (by omega) h
  rwa [Nat.add_zero] at hidx

theorem node_path_succ {m : Mach} {v d t : Nat} (h : m.node (path v d) = some t) :
    m.node (path v (d + 1)) = tables.next d (m.mem t (pageIdx v d)) := by
  have hcons := Radix.node_cons (show pageIdx v d < tables.width from pageIdx_lt v d) h
  rwa [path_length] at hcons

theorem node_path_none {m : Mach} {v d : Nat} (h : m.node (path v d) = none) :
    m.node (path v (d + 1)) = none :=
  Radix.node_cons_none h

theorem node_path_none_le {m : Mach} {v d : Nat} (h : m.node (path v d) = none) :
    ∀ {d' : Nat}, d ≤ d' → m.node (path v d') = none := by
  intro d' hd
  induction d' with
  | zero =>
    rw [show d = 0 by omega] at h
    exact h
  | succ d' ih =>
    by_cases he : d = d' + 1
    · rw [← he]
      exact h
    · exact node_path_none (ih (by omega))

/-- A page below a table has a table at every depth above. -/
theorem node_path_above {m : Mach} {v d t : Nat} (h : m.node (path v (d + 1)) = some t) :
    ∃ s, m.node (path v d) = some s ∧ tables.next d (m.mem s (pageIdx v d)) = some t := by
  obtain ⟨s, hs, -, hnext⟩ := Radix.node_above h
  rw [path_length] at hnext
  exact ⟨s, hs, hnext⟩

theorem path_three_inj {v w : Nat} (hv : v < 2 ^ 36) (hw : w < 2 ^ 36)
    (h : path v 3 = path w 3) : v / 512 = w / 512 := by
  simp only [path, pageIdx, List.cons.injEq, and_true] at h
  omega

theorem path_three_congr {v w : Nat} (h : v / 512 = w / 512) : path v 3 = path w 3 := by
  simp only [path, pageIdx, List.cons.injEq, and_true]
  omega

theorem pageIdx_three (v : Nat) : pageIdx v 3 = v % 512 := by
  rw [pageIdx]
  omega

/-! ## Entries -/

theorem leafEntry_present (phys flags : Nat) : present (leafEntry phys flags) := by
  unfold present leafEntry
  omega

theorem leafEntry_frame (phys flags : Nat) : leafEntry phys flags / 4096 = phys / 4096 := by
  unfold leafEntry
  omega

theorem leafEntry_writable (phys flags : Nat) :
    writable (leafEntry phys flags) ↔ writable flags := by
  unfold writable leafEntry
  omega

theorem openEntry_present (f : Nat) : present (openEntry f) := by
  unfold present openEntry
  omega

theorem openEntry_small (f : Nat) : ¬ large (openEntry f) := by
  unfold large openEntry
  omega

theorem openEntry_frame (f : Nat) : openEntry f / 4096 = f := by
  unfold openEntry
  omega

theorem next_openEntry {d : Nat} (hd : d < 3) (f : Nat) : tables.next d (openEntry f) = some f := by
  rw [next_of_present hd (openEntry_present f) fun h => openEntry_small f h.2, openEntry_frame]

theorem splitEntry_present (e i : Nat) : present (splitEntry e i) ↔ present e := by
  unfold present splitEntry
  omega

theorem splitEntry_frame {i : Nat} (e : Nat) : splitEntry e i / 4096 = e / 2 ^ 21 * 512 + i := by
  unfold splitEntry
  omega

theorem zero_not_present : ¬ present 0 := by
  unfold present
  omega

/-! ## What a page is mapped to -/

/-- The 4 KB entry of page `v`; 0 when a table is missing on the way. -/
def pte (m : Mach) (v : Nat) : Nat :=
  match m.node (path v 3) with
  | some t => m.mem t (pageIdx v 3)
  | none =>
    match m.node (path v 2) with
    | some t => if present (m.mem t (pageIdx v 2)) then splitEntry (m.mem t (pageIdx v 2)) (v % 512)
      else 0
    | none => 0

/-- The page has a page table, so its entry is a 4 KB entry. -/
def Small (m : Mach) (v : Nat) : Prop := ∃ t, m.node (path v 3) = some t

theorem pte_of_table {m : Mach} {v t : Nat} (h : m.node (path v 3) = some t) :
    pte m v = m.mem t (pageIdx v 3) := by
  rw [pte, h]

theorem pte_of_directory {m : Mach} {v t : Nat} (h : m.node (path v 3) = none)
    (h2 : m.node (path v 2) = some t) : pte m v =
      if present (m.mem t (pageIdx v 2)) then splitEntry (m.mem t (pageIdx v 2)) (v % 512)
        else 0 := by
  rw [pte, h, h2]

theorem pte_of_none {m : Mach} {v : Nat} (h : m.node (path v 2) = none) : pte m v = 0 := by
  rw [pte, node_path_none h, h]

section Phys

variable {m : Mach} {v o t : Nat}

theorem physFrom_absent (ho : o < 4096) {level d : Nat} (h : level + 1 + d = 3)
    (hp : ¬ present (m.mem t (pageIdx v d))) :
    physFrom m.mem (v * 4096 + o) (level + 1) t = 0 := by
  rw [physFrom, tableIdx_page v o ho h]
  exact if_pos hp

theorem physFrom_down (ho : o < 4096) {level d : Nat} (h : level + 1 + d = 3)
    (hp : present (m.mem t (pageIdx v d))) (hl : ¬ (level = 0 ∧ large (m.mem t (pageIdx v d)))) :
    physFrom m.mem (v * 4096 + o) (level + 1) t =
      physFrom m.mem (v * 4096 + o) level (m.mem t (pageIdx v d) / 4096) := by
  rw [physFrom, tableIdx_page v o ho h]
  exact (if_neg (not_not.mpr hp)).trans (if_neg hl)

/-- The two lower levels, from the directory of the page on. -/
theorem physFrom_directory (ho : o < 4096) (h : m.node (path v 2) = some t) :
    physFrom m.mem (v * 4096 + o) 1 t =
      if present (pte m v) then pte m v / 4096 * 4096 + o else 0 := by
  have hstep := node_path_succ h
  by_cases hp : present (m.mem t (pageIdx v 2))
  · by_cases hl : large (m.mem t (pageIdx v 2))
    · rw [next_of_large hl] at hstep
      rw [pte_of_directory hstep h, if_pos hp, if_pos ((splitEntry_present _ _).mpr hp),
        splitEntry_frame, physFrom, tableIdx_page v o ho (show 0 + 1 + 2 = 3 from rfl)]
      refine ((if_neg (not_not.mpr hp)).trans (if_pos ⟨rfl, hl⟩)).trans ?_
      omega
    · rw [next_of_present (by omega) hp fun hboth => hl hboth.2] at hstep
      rw [physFrom_down ho (show 0 + 1 + 2 = 3 from rfl) hp fun hboth => hl hboth.2,
        pte_of_table hstep, physFrom, tableIdx_page v o ho (show 0 + 3 = 3 from rfl),
        show (v * 4096 + o) % 4096 = o by omega]
  · rw [next_of_not_present hp] at hstep
    rw [physFrom_absent ho (show 0 + 1 + 2 = 3 from rfl) hp, pte_of_directory hstep h, if_neg hp,
      if_neg zero_not_present]

/-- **`vmm_phys` reads the page's entry.** -/
theorem vmmPhys_eq (m : Mach) (v : Nat) {o : Nat} (ho : o < 4096) : vmmPhys (v * 4096 + o) m =
    if present (pte m v) then pte m v / 4096 * 4096 + o else 0 := by
  have hzero : m.node (path v 2) = none →
      0 = if present (pte m v) then pte m v / 4096 * 4096 + o else 0 := by
    intro h
    rw [pte_of_none h, if_neg zero_not_present]
  have hstep0 := node_path_succ (show m.node (path v 0) = some m.pml4 from rfl)
  rw [vmmPhys]
  by_cases hp0 : present (m.mem m.pml4 (pageIdx v 0))
  · rw [next_of_present (by omega) hp0 (by omega)] at hstep0
    have hstep1 := node_path_succ hstep0
    rw [physFrom_down ho (show 2 + 1 + 0 = 3 from rfl) hp0 (by omega)]
    by_cases hp1 : present (m.mem (m.mem m.pml4 (pageIdx v 0) / 4096) (pageIdx v 1))
    · rw [next_of_present (by omega) hp1 (by omega)] at hstep1
      rw [physFrom_down ho (show 1 + 1 + 1 = 3 from rfl) hp1 (by omega)]
      exact physFrom_directory ho hstep1
    · rw [next_of_not_present hp1] at hstep1
      rw [physFrom_absent ho (show 1 + 1 + 1 = 3 from rfl) hp1]
      exact hzero hstep1
  · rw [next_of_not_present hp0] at hstep0
    rw [physFrom_absent ho (show 2 + 1 + 0 = 3 from rfl) hp0]
    exact hzero (node_path_none hstep0)

end Phys

/-! ## Rights -/

/-- The bit is set in every table entry on the way to page `v`. -/
def Upper (bit : Nat → Prop) (m : Mach) (v : Nat) : Prop :=
  ∀ d < 3, ∀ t, m.node (path v d) = some t → m.node (path v (d + 1)) ≠ none →
    bit (m.mem t (pageIdx v d))

/-- The page is user accessible: present, with the user bit at all levels. -/
def UserPage (m : Mach) (v : Nat) : Prop :=
  present (pte m v) ∧ user (pte m v) ∧ Upper user m v

/-- The page is user accessible and writable. -/
def UserWritable (m : Mach) (v : Nat) : Prop :=
  UserPage m v ∧ writable (pte m v) ∧ Upper writable m v

/-! ## Writing to memory -/

section Writes

variable {m m' : Mach}

/-- Memory changed, but no table did. -/
structure SameTables (m m' : Mach) : Prop where
  pml4 : m'.pml4 = m.pml4
  mem : ∀ f, IsTable m f → m'.mem f = m.mem f

theorem SameTables.node (h : SameTables m m') (p : List Nat) : m'.node p = m.node p := by
  unfold Mach.node
  rw [h.pml4]
  refine Radix.node_congr (fun q t i hq _ => ?_) p
  rw [h.mem t ⟨q, hq⟩]

theorem SameTables.pte (h : SameTables m m') (v : Nat) : pte m' v = pte m v := by
  unfold Mem.pte
  rw [h.node, h.node]
  cases h3 : m.node (path v 3) with
  | some t =>
    dsimp only
    rw [h.mem t ⟨_, h3⟩]
  | none =>
    cases h2 : m.node (path v 2) with
    | some t =>
      dsimp only
      rw [h.mem t ⟨_, h2⟩]
    | none => rfl

theorem SameTables.isTable (h : SameTables m m') (f : Nat) : IsTable m' f ↔ IsTable m f := by
  unfold IsTable
  simp only [h.node]

theorem SameTables.upper (h : SameTables m m') (bit : Nat → Prop) (v : Nat) :
    Upper bit m' v ↔ Upper bit m v := by
  unfold Upper
  constructor
  · intro hu d hd t ht hn
    have hbit := hu d hd t (by rw [h.node]; exact ht) (by rw [h.node]; exact hn)
    rwa [h.mem t ⟨_, ht⟩] at hbit
  · intro hu d hd t ht hn
    rw [h.node] at ht hn
    rw [h.mem t ⟨_, ht⟩]
    exact hu d hd t ht hn

/-! ### Writing the entry of a page -/

section Leaf

variable {v t : Nat}

theorem node_leaf (hT : tables.Tree m.mem m.pml4) (ht : m.node (path v 3) = some t) (i e : Nat)
    (q : List Nat) : (poke t i e m).node q = m.node q := by
  refine Radix.node_congr (fun r s j hr _ => ?_) q
  by_cases hst : s = t
  · -- an entry of a page table is no link
    have hrv : r = path v 3 := hT r (path v 3) t (by rw [← hst]; exact hr) ht
    rw [hrv, path_length, next_leaf (Nat.le_refl 3), next_leaf (Nat.le_refl 3)]
  · rw [poke_frame i e m hst]

/-- A table above the last level is not the page table of `v`. -/
theorem ne_leaf (hT : tables.Tree m.mem m.pml4) (ht : m.node (path v 3) = some t) {w d s : Nat}
    (hd : d < 3) (hs : m.node (path w d) = some s) : s ≠ t := by
  intro hst
  have hlen := congrArg List.length (hT (path w d) (path v 3) t (by rw [← hst]; exact hs) ht)
  rw [path_length, path_length] at hlen
  omega

theorem pte_leaf (hT : tables.Tree m.mem m.pml4) (ht : m.node (path v 3) = some t) (e : Nat)
    {w : Nat} (hv : v < 2 ^ 36) (hw : w < 2 ^ 36) :
    pte (poke t (pageIdx v 3) e m) w = if w = v then e else pte m w := by
  have hnode := node_leaf hT ht (pageIdx v 3) e
  cases h3 : m.node (path w 3) with
  | some s =>
    rw [pte_of_table ((hnode _).trans h3), pte_of_table h3]
    by_cases hwv : w = v
    · have hst : s = t := Option.some.inj (h3.symm.trans (hwv ▸ ht))
      rw [if_pos hwv, hwv, hst]
      exact poke_same _ _ _ _
    · rw [if_neg hwv]
      refine poke_other _ _ fun hboth => hwv ?_
      have hblock := path_three_inj hw hv (hT _ _ t (by rw [← hboth.1]; exact h3) ht)
      have hidx := hboth.2
      rw [pageIdx_three, pageIdx_three] at hidx
      omega
  | none =>
    have hwv : w ≠ v := by
      intro hwv
      rw [hwv, ht] at h3
      exact absurd h3 (by simp)
    rw [if_neg hwv]
    cases h2 : m.node (path w 2) with
    | some s =>
      rw [pte_of_directory ((hnode _).trans h3) ((hnode _).trans h2), pte_of_directory h3 h2,
        poke_frame _ _ _ (ne_leaf hT ht (by omega) h2)]
    | none => rw [pte_of_none ((hnode _).trans h2), pte_of_none h2]

theorem upper_leaf (hT : tables.Tree m.mem m.pml4) (ht : m.node (path v 3) = some t) (i e : Nat)
    (bit : Nat → Prop) (w : Nat) : Upper bit (poke t i e m) w ↔ Upper bit m w := by
  have hnode := node_leaf hT ht i e
  constructor
  · intro hu d hd s hs hn
    have hbit := hu d hd s ((hnode _).trans hs) (by rw [hnode]; exact hn)
    rwa [poke_frame _ _ _ (ne_leaf hT ht hd hs)] at hbit
  · intro hu d hd s hs hn
    rw [hnode] at hs hn
    rw [poke_frame _ _ _ (ne_leaf hT ht hd hs)]
    exact hu d hd s hs hn

end Leaf

/-! ### Adding a table -/

section Link

variable {p : List Nat} {i t n : Nat}

theorem node_hang (hT : tables.Tree m.mem m.pml4) (hpml4 : m'.pml4 = m.pml4)
    (h : tables.Link m.mem m'.mem m.pml4 p i t n) (q : List Nat) :
    m'.node q = if q = i :: p then some n else m.node q := by
  unfold Mach.node
  rw [hpml4]
  exact Radix.node_link hT h q

/-- The entry that took the link led nowhere. -/
theorem node_unlinked (h : tables.Link m.mem m'.mem m.pml4 p i t n) : m.node (i :: p) = none :=
  (Radix.node_cons h.index h.table).trans h.unlinked

/-- Every table stays where it was. -/
theorem node_kept (hT : tables.Tree m.mem m.pml4) (hpml4 : m'.pml4 = m.pml4)
    (h : tables.Link m.mem m'.mem m.pml4 p i t n) {q : List Nat} {f : Nat}
    (hq : m.node q = some f) :
    m'.node q = some f := by
  rw [node_hang hT hpml4 h, if_neg, hq]
  intro heq
  rw [heq, node_unlinked h] at hq
  exact absurd hq (by simp)

theorem isTable_hang (hT : tables.Tree m.mem m.pml4) (hpml4 : m'.pml4 = m.pml4)
    (h : tables.Link m.mem m'.mem m.pml4 p i t n) (f : Nat) :
    IsTable m' f ↔ IsTable m f ∨ f ∈ [n] := by
  rw [List.mem_singleton]
  constructor
  · intro h
    obtain ⟨q, hq⟩ := h
    rw [node_hang hT hpml4 h] at hq
    split at hq
    · exact Or.inr (Option.some.inj hq).symm
    · exact Or.inl ⟨q, hq⟩
  · intro h
    rcases h with ⟨q, hq⟩ | rfl
    · exact ⟨q, node_kept hT hpml4 h hq⟩
    · exact ⟨i :: p, by rw [node_hang hT hpml4 h, if_pos rfl]⟩

/-- A word of an old table other than the entry that took the link. -/
theorem mem_hang (hT : tables.Tree m.mem m.pml4) (h : tables.Link m.mem m'.mem m.pml4 p i t n)
    {q : List Nat} {s j : Nat} (hs : m.node q = some s) (hq : j :: q ≠ i :: p) :
    m'.mem s j = m.mem s j := by
  refine h.rest s j (fun hsn => h.fresh q (by rw [← hsn]; exact hs)) fun hboth => hq ?_
  rw [hboth.2, hT q p t (by rw [← hboth.1]; exact hs) h.table]

/-- **No page is mapped elsewhere for a table more**: a page table comes with the entries its
pages had, a higher table comes empty. -/
theorem pte_link (hT : tables.Tree m.mem m.pml4) (hpml4 : m'.pml4 = m.pml4)
    (h : tables.Link m.mem m'.mem m.pml4 p i t n)
    (hleaf : ∀ w, path w 3 = i :: p → m'.mem n (pageIdx w 3) = pte m w)
    (hdir : ∀ w, path w 2 = i :: p → ¬ present (m'.mem n (pageIdx w 2))) (w : Nat) :
    pte m' w = pte m w := by
  have hnode := node_hang hT hpml4 h
  by_cases h3 : path w 3 = i :: p
  · rw [pte_of_table (by rw [hnode, if_pos h3]), hleaf w h3]
  · have hnode3 : m'.node (path w 3) = m.node (path w 3) := by rw [hnode, if_neg h3]
    cases hold3 : m.node (path w 3) with
    | some s =>
      have hne : pageIdx w 3 :: path w 3 ≠ i :: p := by
        -- a page table has no links, so it is not the table that took one
        intro heq
        have hlen := (next_some h.link).1
        rw [← (List.cons.inj heq).2, path_length] at hlen
        omega
      rw [pte_of_table (hnode3.trans hold3), pte_of_table hold3, mem_hang hT h hold3 hne]
    | none =>
      by_cases h2 : path w 2 = i :: p
      · have hold2 : m.node (path w 2) = none := by rw [h2, node_unlinked h]
        rw [pte_of_directory (hnode3.trans hold3) (by rw [hnode, if_pos h2]), if_neg (hdir w h2),
          pte_of_none hold2]
      · have hnode2 : m'.node (path w 2) = m.node (path w 2) := by rw [hnode, if_neg h2]
        cases hold2 : m.node (path w 2) with
        | some s =>
          rw [pte_of_directory (hnode3.trans hold3) (hnode2.trans hold2),
            pte_of_directory hold3 hold2,
            mem_hang hT h hold2 h3]
        | none => rw [pte_of_none (hnode2.trans hold2), pte_of_none hold2]

theorem upper_link (hT : tables.Tree m.mem m.pml4) (hpml4 : m'.pml4 = m.pml4)
    (h : tables.Link m.mem m'.mem m.pml4 p i t n) {bit : Nat → Prop} {w : Nat}
    (hu : Upper bit m' w) : Upper bit m w := by
  intro d hd s hs hn
  have hnode := node_hang hT hpml4 h
  have hkeep : ∀ {q : List Nat}, m.node q ≠ none → m'.node q = m.node q := by
    intro q hq
    rw [hnode, if_neg fun heq => hq (by rw [heq, node_unlinked h])]
  have hbit := hu d hd s (by rw [hkeep (by rw [hs]; simp), hs]) (by rw [hkeep hn]; exact hn)
  have hne : pageIdx w d :: path w d ≠ i :: p := by
    intro heq
    exact hn (by rw [path, heq, node_unlinked h])
  rwa [mem_hang hT h hs hne] at hbit

/-- A bit that the entry with the link has, as all others, is still set all the way. -/
theorem upper_opened (hT : tables.Tree m.mem m.pml4) (hpml4 : m'.pml4 = m.pml4)
    (h : tables.Link m.mem m'.mem m.pml4 p i t n) {bit : Nat → Prop} (hbit : bit (m'.mem t i))
    {w : Nat}
    (hu : Upper bit m w) : Upper bit m' w := by
  intro d hd s hs hn
  have hnode := node_hang hT hpml4 h
  have hout : path w d ≠ i :: p := by
    intro heq
    have hnone : m.node (path w d) = none := by rw [heq, node_unlinked h]
    rw [hnode] at hn
    split at hn
    · next hlow =>
      rw [path, heq] at hlow
      have hlen := congrArg List.length hlow
      simp at hlen
    · exact hn (node_path_none hnone)
  rw [hnode, if_neg hout] at hs
  by_cases hlink : path w (d + 1) = i :: p
  · obtain ⟨hi, hp⟩ := List.cons.inj hlink
    have hst : s = t := Option.some.inj (hs.symm.trans (hp ▸ h.table))
    rw [hst, hi]
    exact hbit
  · rw [hnode, if_neg hlink] at hn
    rw [mem_hang hT h hs hlink]
    exact hu d hd s hs hn

end Link

end Writes

end InaneOS.Mem
