import InaneOS.Fat.NewChain
import InaneOS.Lib.NextFit
import Mathlib.Data.List.Find

/-!
# Which clusters a call takes

`alloc_clus` is a next-fit search: it starts two clusters behind the last one it gave
out, goes round the table once and takes the first free cluster it meets. So the
clusters that a call of `fat_write` takes are fixed beforehand, by the table and by
`alloc_hint` (`nextFree`, `takeFree`), as are the sectors it writes into them (`Placed`).
-/

namespace InaneOS.Fat

open InaneOS.Lib

/-! ## The order of allocation -/

/-- The cluster that `alloc_clus` takes when `cs` have been taken already and the last cluster given
out was `hint`. -/
def nextFree (g : Geo) (d : Disk) (cs : List Nat) (hint : Nat) : Option Nat :=
  ((List.range (g.fatSz * 128)).map (probe g hint)).find? fun c =>
    decide (fatEntry g d 0 c = 0 ∧ c ∉ cs)

/-- `n` clusters more than `cs`, and what `alloc_hint` is then. -/
def takeFree (g : Geo) (d : Disk) : Nat → List Nat → Nat → Option (List Nat × Nat)
  | 0, cs, hint => some (cs, hint)
  | n + 1, cs, hint => (nextFree g d cs hint).bind fun c => takeFree g d n (cs ++ [c]) c

section Order

variable {g : Geo} {d : Disk}

theorem nextFree_congr {d' : Disk} {cs cs' : List Nat} (hg : g.Ok) (hint : Nat)
    (h : ∀ c, InRange g c → (fatEntry g d' 0 c = 0 ∧ c ∉ cs' ↔ fatEntry g d 0 c = 0 ∧ c ∉ cs)) :
    nextFree g d' cs' hint = nextFree g d cs hint := by
  unfold nextFree
  refine List.find?_congr fun c hc => ?_
  obtain ⟨i, -, rfl⟩ := List.mem_map.mp hc
  exact decide_eq_decide.mpr (h _ (probe_inRange hg hint i))

/-- The search misses no cluster, wherever it starts. -/
theorem exists_probe (hg : g.Ok) {hint c : Nat} (hh : hint < 2 ^ 28) (hc : InRange g c) :
    ∃ i < g.fatSz * 128, probe g hint i = c := by
  have hpos := hg.fatSz_pos
  have hlt := hg.fatSz_lt
  obtain ⟨hlo, hhi⟩ := hc
  obtain ⟨i, hi, hround⟩ := @exists_round (hint % (g.fatSz * 128 - 2)) (g.fatSz * 128 - 2) (c - 2)
    (Nat.mod_lt _ (by omega)) (by omega)
  refine ⟨i, by omega, ?_⟩
  -- the sum stays below `2 ^ 32`, so the rounds are those of the rotation
  rw [probe, Nat.mod_eq_of_lt (show hint + i < 2 ^ 32 by omega), ← Nat.mod_add_mod, hround]
  omega

/-- No cluster is found only when there is none. -/
theorem nextFree_eq_none (hg : g.Ok) {cs : List Nat} {hint : Nat} (hh : hint < 2 ^ 28) :
    nextFree g d cs hint = none ↔ ∀ c, InRange g c → fatEntry g d 0 c = 0 → c ∈ cs := by
  rw [nextFree, List.find?_eq_none]
  constructor
  · intro h c hc hfree
    obtain ⟨i, hi, rfl⟩ := exists_probe hg hh hc
    have hno := h _ (List.mem_map.mpr ⟨i, List.mem_range.mpr hi, rfl⟩)
    by_contra hcs
    exact hno (decide_eq_true ⟨hfree, hcs⟩)
  · intro h c hc hfree
    obtain ⟨i, -, rfl⟩ := List.mem_map.mp hc
    obtain ⟨hzero, hcs⟩ := of_decide_eq_true hfree
    exact hcs (h _ (probe_inRange hg hint i) hzero)

/-- What is taken comes behind what was there. -/
theorem takeFree_prefix : ∀ {n : Nat} {cs cs' : List Nat} {hint hint' : Nat},
    takeFree g d n cs hint = some (cs', hint') → ∃ new, cs' = cs ++ new
  | 0, cs, cs', _, _, h =>
    ⟨[], by rw [takeFree, Option.some.injEq, Prod.mk.injEq] at h; rw [← h.1, List.append_nil]⟩
  | n + 1, cs, cs', hint, _, h => by
    rw [takeFree, Option.bind_eq_some_iff] at h
    obtain ⟨c, -, h⟩ := h
    obtain ⟨new, hnew⟩ := takeFree_prefix h
    exact ⟨c :: new, by rw [hnew, List.append_assoc, List.singleton_append]⟩

/-- `alloc_clus` takes the next free cluster. -/
theorem allocClus_next {f : Vol} (hg : f.toGeo.Ok) (ho : FatsOn f.toGeo f.disk) :
    (nextFree f.toGeo f.disk [] f.allocHint = none ∧ ∃ s, allocClus f = (0, { f with sec := s })) ∨
    ∃ c f' ws, nextFree f.toGeo f.disk [] f.allocHint = some c ∧ allocClus f = (c, f') ∧
      InRange f.toGeo c ∧
      fatEntry f.toGeo f.disk 0 c = 0 ∧ SetDone f c lastMark f' ws ∧ f'.allocHint = c := by
  have hfind : nextFree f.toGeo f.disk [] f.allocHint =
      ((List.range (f.fatSz * 128)).map (probe f.toGeo f.allocHint)).find?
        (fun c => fatEntry f.toGeo f.disk 0 c = 0) := by
    simp only [nextFree, List.not_mem_nil, not_false_eq_true, and_true]
  rw [hfind]
  exact allocClus_probe hg ho

end Order

/-- Only `alloc_clus` moves `alloc_hint`. -/
theorem fatSetLoop_hint (c v : Nat) :
    ∀ (n k : Nat) (f : Vol), (fatSetLoop c v n k f).2.allocHint = f.allocHint
  | 0, _, _ => rfl
  | n + 1, k, f => by
    unfold fatSetLoop ideRead ideWrite
    dsimp only
    by_cases hr : f.disk.drive.reads (f.fatStart + k * f.fatSz + c * 4 / 512) = true
    · rw [if_pos hr]
      dsimp only
      by_cases hw : f.disk.drive.writes (f.fatStart + k * f.fatSz + c * 4 / 512) = true
      · rw [hw]
        exact fatSetLoop_hint c v n (k + 1) _
      · rw [Bool.eq_false_iff.mpr hw]
    · rw [if_neg hr]

theorem writeClus_hint :
    ∀ (n l : Nat) (left : Str) (f : Vol), (writeClus n l left f).2.2.allocHint = f.allocHint
  | 0, _, _, _ => rfl
  | n + 1, l, left, f => by
    unfold writeClus
    by_cases hleft : left = []
    · rw [if_pos hleft]
    · rw [if_neg hleft]
      unfold ideWrite
      dsimp only
      by_cases hw : f.disk.drive.writes l = true
      · rw [hw]
        exact writeClus_hint n (l + 1) (left.drop 512) _
      · rw [Bool.eq_false_iff.mpr hw]
/-! ## The sectors that are written -/

/-- `dir_slot` clears a cluster when each of its sectors can be written. -/
theorem zeroClus_ok : ∀ (n l : Nat) (f : Vol),
    (zeroClus n l f).1 = true ↔ ∀ s, l ≤ s → s < l + n → f.disk.drive.writes s = true
  | 0, l, _ => iff_of_true rfl fun s h1 h2 => by omega
  | n + 1, l, f => by
    unfold zeroClus ideWrite
    by_cases hl : f.disk.drive.writes l = true
    · rw [hl]
      dsimp only
      rw [zeroClus_ok n (l + 1)]
      constructor
      · intro h s h1 h2
        by_cases hs : s = l
        · rw [hs]
          exact hl
        · exact h s (by omega) (by omega)
      · exact fun h s h1 h2 => h s (by omega) (by omega)
    · rw [Bool.eq_false_iff.mpr hl]
      exact iff_of_false (by simp) fun h => hl (h l (Nat.le_refl _) (by omega))

/-- `fat_write` fills a cluster when each sector that gets a byte can be written. -/
theorem writeClus_ok : ∀ (n l : Nat) (left : Str) (f : Vol), (writeClus n l left f).1 = true ↔
    ∀ s < n, s * 512 < left.length → f.disk.drive.writes (l + s) = true
  | 0, _, _, _ => iff_of_true rfl fun s hs => absurd hs (Nat.not_lt_zero s)
  | n + 1, l, left, f => by
    unfold writeClus
    by_cases hleft : left = []
    · rw [if_pos hleft, hleft]
      exact iff_of_true rfl fun s _ hs => absurd hs (Nat.not_lt_zero _)
    · have hpos : 0 < left.length := List.length_pos_iff.mpr hleft
      have hlen : (left.drop 512).length = left.length - 512 := List.length_drop
      have hrec := fun f => writeClus_ok n (l + 1) (left.drop 512) f
      rw [hlen] at hrec
      rw [if_neg hleft]
      unfold ideWrite
      dsimp only
      by_cases hl : f.disk.drive.writes l = true
      · rw [hl]
        dsimp only
        refine (hrec _).trans ?_
        constructor
        · intro h s hs hlt
          cases s with
          | zero => exact hl
          | succ s =>
            rw [Nat.succ_mul] at hlt
            rw [show l + (s + 1) = l + 1 + s by omega]
            exact h s (by omega) (Nat.lt_sub_of_add_lt hlt)
        · intro h s hs hlt
          have hnext := h (s + 1) (by omega) (by rw [Nat.succ_mul]; exact Nat.add_lt_of_lt_sub hlt)
          rw [show l + (s + 1) = l + 1 + s by omega] at hnext
          exact hnext
      · rw [Bool.eq_false_iff.mpr hl]
        refine iff_of_false (by simp) fun h => hl ?_
        exact h 0 (Nat.succ_pos n) (by rw [Nat.zero_mul]; exact hpos)

/-- How many clusters `len` bytes take. -/
def clusCount (g : Geo) (len : Nat) : Nat := (len + g.secPerClus * 512 - 1) / (g.secPerClus * 512)

/-- `len` bytes have their place: behind the clusters `cs` come the clusters `new`, with
`alloc_hint` going from `hint` to `hint'`, and the sectors that get the bytes can be written. -/
structure Placed (g : Geo) (d : Disk) (len : Nat) (cs : List Nat) (hint : Nat)
    (new : List Nat) (hint' : Nat) :
    Prop where
  taken : takeFree g d (clusCount g len) cs hint = some (cs ++ new, hint')
  written : ∀ l ∈ (secsOf g new).take ((len + 511) / 512), d.drive.writes l = true

section Placed

variable {g : Geo} {d : Disk} {len : Nat} {cs new : List Nat} {hint hint' : Nat}

theorem clusCount_zero : clusCount g 0 = 0 := by
  unfold clusCount
  rcases Nat.eq_zero_or_pos (g.secPerClus * 512) with h | h
  · rw [h]
  · exact Nat.div_eq_of_lt (by omega)

theorem clusCount_pos (hs : 0 < g.secPerClus) (hlen : 0 < len) :
    clusCount g len = clusCount g (len - g.secPerClus * 512) + 1 := by
  have hpos : 0 < g.secPerClus * 512 := by omega
  unfold clusCount
  generalize g.secPerClus * 512 = n at hpos
  by_cases hle : n ≤ len
  · rw [show len + n - 1 = (len - n + n - 1) + n by omega, Nat.add_div_right _ hpos]
  · rw [show len - n = 0 by omega, show len + n - 1 = (len - 1) + n by omega,
      Nat.add_div_right _ hpos, Nat.div_eq_of_lt (show len - 1 < n by omega),
      Nat.div_eq_of_lt (show 0 + n - 1 < n by omega)]

/-- The place is fixed. -/
theorem Placed.unique {new' : List Nat} {h' : Nat} (h : Placed g d len cs hint new hint')
    (h₂ : Placed g d len cs hint new' h') : new = new' ∧ hint' = h' := by
  have heq := Option.some.inj (h.taken.symm.trans h₂.taken)
  rw [Prod.mk.injEq, List.append_cancel_left_eq] at heq
  exact heq

/-- Nothing to place. -/
theorem placed_nil : Placed g d 0 cs hint new hint' ↔ new = [] ∧ hint' = hint := by
  constructor
  · intro h
    obtain ⟨htaken, -⟩ := h
    rw [clusCount_zero, takeFree, Option.some.injEq, Prod.mk.injEq] at htaken
    exact ⟨List.self_eq_append_right.mp htaken.1, htaken.2.symm⟩
  · intro h
    obtain ⟨rfl, rfl⟩ := h
    exact ⟨by rw [clusCount_zero, takeFree, List.append_nil], by simp⟩

theorem range'_take (k l n : Nat) : (List.range' l n).take k = List.range' l (min k n) := by
  rcases Nat.le_total n k with h | h
  · rw [List.take_range'_of_length_le h, Nat.min_eq_right h]
  · rw [List.take_range'_of_length_ge h, Nat.min_eq_left h]

/-- The sectors that `len` bytes need: those in the first cluster, and those behind it. -/
theorem written_cons {c : Nat} {rest : List Nat} :
    (∀ l ∈ (secsOf g (c :: rest)).take ((len + 511) / 512), d.drive.writes l = true) ↔
      (∀ s < g.secPerClus, s * 512 < len → d.drive.writes (clusLba c g + s) = true) ∧
        ∀ l ∈ (secsOf g rest).take ((len - g.secPerClus * 512 + 511) / 512),
          d.drive.writes l = true := by
  rw [secsOf_cons, List.take_append, List.forall_mem_append, List.length_range', range'_take,
    show (len + 511) / 512 - g.secPerClus = (len - g.secPerClus * 512 + 511) / 512 by omega]
  refine and_congr_left' ⟨fun h s hs hlt => ?_, fun h l hl => ?_⟩
  · exact h _ (List.mem_range'_1.mpr ⟨Nat.le_add_right _ _, by omega⟩)
  · obtain ⟨hlo, hhi⟩ := List.mem_range'_1.mp hl
    rw [show l = clusLba c g + (l - clusLba c g) by omega]
    exact h _ (by omega) (by omega)

/-- The first cluster, and the rest. -/
theorem placed_step (hs : 0 < g.secPerClus) (hlen : 0 < len) : Placed g d len cs hint new hint' ↔
    ∃ c rest, new = c :: rest ∧ nextFree g d cs hint = some c ∧
      (∀ s < g.secPerClus, s * 512 < len → d.drive.writes (clusLba c g + s) = true) ∧
      Placed g d (len - g.secPerClus * 512) (cs ++ [c]) c rest hint' := by
  constructor
  · intro h
    obtain ⟨htaken, hwritten⟩ := h
    rw [clusCount_pos hs hlen, takeFree, Option.bind_eq_some_iff] at htaken
    obtain ⟨c, hc, htaken⟩ := htaken
    obtain ⟨rest, hrest⟩ := takeFree_prefix htaken
    rw [List.append_assoc, List.append_cancel_left_eq, List.singleton_append] at hrest
    subst hrest
    obtain ⟨hfirst, hmore⟩ := written_cons.mp hwritten
    refine ⟨c, rest, rfl, hc, hfirst, ?_, hmore⟩
    rw [List.append_assoc, List.singleton_append]
    exact htaken
  · intro h
    obtain ⟨c, rest, rfl, hc, hfirst, htaken, hmore⟩ := h
    refine ⟨?_, written_cons.mpr ⟨hfirst, hmore⟩⟩
    rw [clusCount_pos hs hlen, takeFree, hc, Option.bind_some, htaken, List.append_assoc,
      List.singleton_append]

end Placed

end InaneOS.Fat
