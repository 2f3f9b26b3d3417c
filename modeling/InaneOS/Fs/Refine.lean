import InaneOS.Fs.Reference
import InaneOS.Fs.Parts

/-!
# The node table refines the tree

`pathOf` climbs from a node to the root; no two nodes have the same path
(`pathOf_inj`), so an item of the tree is exactly one node, and since slots are
taken in order the tree is the list of the used nodes (`Sim`). The heart of the
refinement is `walk_go`: the lookup of the source and the walk over components
agree, and a path in which no component is cut is its own parts (`parts_short`).
Each call then does the same on both sides (`run_sim`), and `runCalls_runAll` says
so of whole histories.
-/

namespace InaneOS.Fs

open InaneOS.Fat

/-! ## Paths of nodes -/

/-- The names from the root down to node `i`, in at most `k` steps. -/
def pathFrom (s : FS) : Nat → Nat → List Str
  | 0, _ => []
  | k + 1, i => if i = 0 then [] else pathFrom s k (s.nodes i).parent.toNat ++ [(s.nodes i).name]

/-- A node's path; its ancestors have smaller indices, so `i` steps suffice. -/
def pathOf (s : FS) (i : Nat) : List Str := pathFrom s i i

/-- What a node holds. -/
def itemOf (n : Node) : Item :=
  if n.isDir then .directory else .file ((List.range n.datalen).map n.data)

theorem itemOf_dir {n : Node} : itemOf n = .directory ↔ n.isDir = true := by
  unfold itemOf
  split
  · next h => simp [h]
  · next h => simp [h]

theorem itemOf_file {n : Node} (h : n.isDir = false) :
    itemOf n = .file ((List.range n.datalen).map n.data) := by
  rw [itemOf, h]
  rfl

theorem pathOf_zero (s : FS) : pathOf s 0 = [] := rfl

section Paths

variable {s : FS} (h : FsInv s)

include h

/-- More steps than needed do not matter. -/
theorem pathFrom_enough : ∀ (k k' i : Nat), i ≤ k → i ≤ k' → i < fsMax →
    (s.nodes i).used = true → pathFrom s k i = pathFrom s k' i
  | 0, 0, _, _, _, _, _ => rfl
  | 0, k' + 1, i, hk, _, _, _ => by
    obtain rfl : i = 0 := by omega
    rw [pathFrom, pathFrom, if_pos rfl]
  | k + 1, 0, i, _, hk', _, _ => by
    obtain rfl : i = 0 := by omega
    rw [pathFrom, pathFrom, if_pos rfl]
  | k + 1, k' + 1, i, hk, hk', hi, hu => by
    rw [pathFrom, pathFrom]
    split
    · rfl
    · next h0 =>
      obtain ⟨p, hp, hlt, hd⟩ := h.parent i hi h0 hu
      rw [hp, Int.toNat_natCast, pathFrom_enough k k' p (by omega) (by omega) hd.lt hd.used]

theorem pathOf_child {i p : Nat} (hi : i < fsMax) (hu : (s.nodes i).used = true)
    (hp : (s.nodes i).parent = p) : pathOf s i = pathOf s p ++ [(s.nodes i).name] := by
  have h0 : i ≠ 0 := by
    intro he
    subst he
    rw [h.rootParent] at hp
    omega
  obtain ⟨p', hp', hlt, hd⟩ := h.parent i hi h0 hu
  obtain rfl : p' = p := by
    rw [hp'] at hp
    exact Int.ofNat_inj.mp hp
  obtain ⟨k, rfl⟩ : ∃ k, i = k + 1 := ⟨i - 1, by omega⟩
  rw [pathOf, pathFrom, if_neg h0, hp', Int.toNat_natCast,
    pathFrom_enough h k p' p' (by omega) (Nat.le_refl _) hd.lt hd.used]
  rfl

/-- The parent of a node other than the root, and its path. -/
theorem pathOf_split {i : Nat} (hi : i < fsMax) (hu : (s.nodes i).used = true) (h0 : i ≠ 0) :
    ∃ p : Nat, (s.nodes i).parent = p ∧ p < i ∧ IsDir s p ∧
      pathOf s i = pathOf s p ++ [(s.nodes i).name] := by
  obtain ⟨p, hp, hlt, hd⟩ := h.parent i hi h0 hu
  exact ⟨p, hp, hlt, hd, pathOf_child h hi hu hp⟩

theorem pathOf_eq_nil {i : Nat} (hi : i < fsMax) (hu : (s.nodes i).used = true) :
    pathOf s i = [] ↔ i = 0 := by
  constructor
  · intro hn
    by_contra h0
    obtain ⟨p, -, -, -, he⟩ := pathOf_split h hi hu h0
    rw [he] at hn
    simp at hn
  · intro he
    subst he
    rfl

/-- **A path belongs to one node.** -/
theorem pathOf_inj : ∀ {i j : Nat}, i < fsMax → (s.nodes i).used = true → j < fsMax →
    (s.nodes j).used = true → pathOf s i = pathOf s j → i = j := by
  intro i
  induction i using Nat.strongRecOn with
  | ind i ih =>
    intro j hi hui hj huj he
    by_cases h0 : i = 0
    · rw [h0, pathOf_zero] at he
      rw [h0, (pathOf_eq_nil h hj huj).mp he.symm]
    · by_cases hj0 : j = 0
      · rw [hj0, pathOf_zero] at he
        exact absurd ((pathOf_eq_nil h hi hui).mp he) h0
      · obtain ⟨p, hp, hlt, hd, hpi⟩ := pathOf_split h hi hui h0
        obtain ⟨q, hq, -, hdq, hqj⟩ := pathOf_split h hj huj hj0
        rw [hpi, hqj] at he
        obtain ⟨hpq, hname⟩ := List.append_inj' he rfl
        have hpe := ih p hlt hd.lt hd.used hdq.lt hdq.used hpq
        refine h.uniq i hi j hj hui huj ?_ (by simpa using hname)
        rw [hp, hq, hpe]

end Paths

/-! ## The simulation -/

/-- The tree lists the used nodes. -/
structure Sim (s : FS) (t : Tree) : Prop where
  inv : FsInv s
  ram : s.mounted = false
  le : t.items.length ≤ fsMax
  used : ∀ i < fsMax, ((s.nodes i).used = true ↔ i < t.items.length)
  items : t.items = (List.range t.items.length).map fun i => (pathOf s i, itemOf (s.nodes i))
  cwd : t.cwd = pathOf s s.cwd

namespace Sim

variable {s : FS} {t : Tree} (h : Sim s t)

include h

theorem not_mounted : ¬ s.mounted = true := by
  rw [h.ram]
  simp

theorem mem_items {e : List Str × Item} (he : e ∈ t.items) :
    ∃ i < fsMax, (s.nodes i).used = true ∧ e = (pathOf s i, itemOf (s.nodes i)) := by
  rw [h.items] at he
  obtain ⟨i, hi, rfl⟩ := List.mem_map.mp he
  have hi := List.mem_range.mp hi
  have hlt : i < fsMax := Nat.lt_of_lt_of_le hi h.le
  exact ⟨i, hlt, (h.used i hlt).mpr hi, rfl⟩

/-- The item at a node's path is what the node holds. -/
theorem lookup_pathOf {i : Nat} (hi : i < fsMax) (hu : (s.nodes i).used = true) :
    t.lookup (pathOf s i) = some (itemOf (s.nodes i)) := by
  have hmem : (pathOf s i, itemOf (s.nodes i)) ∈ t.items := by
    rw [h.items]
    exact List.mem_map.mpr ⟨i, List.mem_range.mpr ((h.used i hi).mp hu), rfl⟩
  unfold Tree.lookup
  cases hf : t.items.find? fun e => e.1 = pathOf s i with
  | none => exact absurd (List.find?_eq_none.mp hf _ hmem) (by simp)
  | some e =>
    obtain ⟨j, hj, huj, rfl⟩ := h.mem_items (List.mem_of_find?_eq_some hf)
    have he := List.find?_some hf
    simp only [decide_eq_true_eq] at he
    rw [pathOf_inj h.inv hj huj hi hu he]
    rfl

theorem lookup_none {p : List Str} (hno : ∀ i < fsMax, (s.nodes i).used = true → pathOf s i ≠ p) :
    t.lookup p = none := by
  unfold Tree.lookup
  rw [List.find?_eq_none.mpr, Option.map_none]
  intro e he
  obtain ⟨i, hi, hu, rfl⟩ := h.mem_items he
  simpa using hno i hi hu

/-- A kid is the item under the directory's path and its name. -/
theorem findKid_lookup {d : Nat} {nm : Str} (hd : IsDir s d) :
    t.lookup (pathOf s d ++ [nm]) = (findKid d nm s).map fun k => itemOf (s.nodes k) := by
  cases hk : findKid d nm s with
  | some k =>
    obtain ⟨hlt, hu, hp, rfl⟩ := findKid_some hk
    rw [← pathOf_child h.inv hlt hu hp, h.lookup_pathOf hlt hu]
    rfl
  | none =>
    refine h.lookup_none fun i hi hu he => ?_
    have h0 : i ≠ 0 := by
      intro he
      subst he
      simp [pathOf_zero] at he
    obtain ⟨p, hp, -, hpd, hpath⟩ := pathOf_split h.inv hi hu h0
    rw [hpath] at he
    obtain ⟨hpp, hname⟩ := List.append_inj' he rfl
    have hpd' := pathOf_inj h.inv hpd.lt hpd.used hd.lt hd.used hpp
    exact findKid_none hk hi hu (by rw [hp, hpd']) (by simpa using hname)

theorem pathOf_kid {d k : Nat} {nm : Str} (hk : findKid d nm s = some k) :
    pathOf s k = pathOf s d ++ [nm] := by
  obtain ⟨hlt, hu, hp, rfl⟩ := findKid_some hk
  exact pathOf_child h.inv hlt hu hp

/-- One step up drops the last component. -/
theorem up_dropLast {cur : Nat} (hc : IsDir s cur) :
    IsDir s (up s cur) ∧ pathOf s (up s cur) = (pathOf s cur).dropLast := by
  refine ⟨up_isDir h.inv hc.lt hc.used hc.dir, ?_⟩
  unfold up
  by_cases h0 : cur = 0
  · subst h0
    rw [h.inv.rootParent, if_neg (by omega)]
    rfl
  · obtain ⟨p, hp, -, -, hpath⟩ := pathOf_split h.inv hc.lt hc.used h0
    rw [hp, if_pos (by omega), Int.toNat_natCast, hpath, List.dropLast_concat]

end Sim

/-! ## Resolving -/

/-- No component is cut by `next_part`. -/
def Short (path : Str) : Prop := ∀ c ∈ comps path, c.length ≤ 31

/-- A short path is looked up by its components. -/
theorem parts_short {path : Str} (hs : Short path) : parts path = comps path := by
  have hcut : ∀ c ∈ comps path, cut c = [c] := fun c hc =>
    cut_short (Lib.mem_pieces hc).1 (hs c hc)
  rw [parts, List.flatMap_congr hcut, List.flatMap_singleton']

/-- **The lookup of `resolve` follows the components.** -/
theorem walk_go {s : FS} {t : Tree} (h : Sim s t) : ∀ (cs : List Str) (cur : Nat), IsDir s cur →
    (walk s cs cur).map (pathOf s) = t.go (pathOf s cur) cs
  | [], _, _ => rfl
  | c :: cs, cur, hc => by
    rw [walk, Tree.go]
    split
    · exact walk_go h cs cur hc
    · split
      · obtain ⟨hpd, hpath⟩ := h.up_dropLast hc
        rw [← hpath]
        exact walk_go h cs _ hpd
      · rw [h.findKid_lookup hc]
        cases hkid : findKid cur c s with
        | none => rfl
        | some j =>
          obtain ⟨hj, hju, -, -⟩ := findKid_some hkid
          rw [← h.pathOf_kid hkid]
          dsimp only [Option.map_some]
          cases hjd : (s.nodes j).isDir with
          | true =>
            rw [itemOf_dir.mpr hjd, if_neg (by simp)]
            exact walk_go h cs j ⟨hj, hju, hjd⟩
          | false =>
            rw [itemOf_file hjd]
            dsimp only
            by_cases hcs : cs = []
            · rw [if_neg (by simp [hcs]), if_pos hcs, hcs]
              rfl
            · rw [if_pos ⟨hcs, by simp⟩, if_neg hcs]
              rfl

section Resolve

variable {s : FS} {t : Tree} (h : Sim s t)

include h

theorem resolve_find {path : Str} (hs : Short path) :
    (resolve path s).map (pathOf s) = t.find path := by
  have hstart : pathOf s (startOf path s) = if path.head? = some slash then [] else t.cwd := by
    unfold startOf
    split
    · rfl
    · exact h.cwd.symm
  rw [resolve_walk, parts_short hs, walk_go h _ _ (startOf_isDir h.inv path), hstart]
  rfl

theorem resolveDir_findDir {path : Str} (hs : Short path) :
    (resolveDir path s).map (pathOf s) = t.findDir path := by
  have hfind := resolve_find h hs
  unfold resolveDir Tree.findDir
  cases hr : resolve path s with
  | none =>
    rw [hr] at hfind
    rw [← hfind]
    rfl
  | some d =>
    rw [hr] at hfind
    obtain ⟨hd, hu⟩ := resolve_used h.inv hr
    rw [← hfind]
    dsimp only [Option.map_some]
    rw [h.lookup_pathOf hd hu]
    cases hdir : (s.nodes d).isDir with
    | true =>
      rw [itemOf_dir.mpr hdir]
      rfl
    | false =>
      have hne : some (itemOf (s.nodes d)) ≠ some .directory := fun he => by
        rw [itemOf_dir.mp (Option.some.inj he)] at hdir
        exact absurd hdir (by simp)
      rw [if_neg hne]
      rfl

omit h in
/-- A short name without a slash is taken whole. -/
theorem nextPart_short {v : Str} (hv : slash ∉ v) (hlen : v.length ≤ 31) : nextPart v = v := by
  rw [nextPart_word hv, List.take_of_length_le hlen]

omit h in
theorem short_word {path a v : Str} (hp : path = a ++ v) (hs : Short path) (hv : slash ∉ v)
    (ha : a = [] ∨ ∃ a', a = a' ++ [slash]) : v.length ≤ 31 := by
  by_cases hne : v = []
  · rw [hne]
    exact Nat.zero_le _
  · refine hs v ?_
    rcases ha with rfl | ⟨a', rfl⟩
    · rw [hp, List.nil_append, comps, Lib.pieces_word hv hne]
      simp
    · rw [hp, List.append_assoc, List.singleton_append, comps, Lib.pieces_append_sep,
        Lib.pieces_word hv hne]
      simp

theorem splitParent_split {arg : Str} (hlen : arg.length ≤ 127) (hs : Short arg) :
    (splitParent arg s).map (fun r => (pathOf s r.1, r.2)) = t.split arg := by
  unfold splitParent Tree.split
  rcases exists_last arg with hno | ⟨a, v, rfl, hv⟩
  · rw [lastSlash_none hno]
    dsimp only
    rw [nextPart_short hno (short_word (a := []) rfl hs hno (Or.inl rfl)), h.cwd]
    rfl
  · rw [lastSlash_append hv]
    rw [List.length_append, List.length_cons] at hlen
    have hmin : min (0 + a.length) 127 = a.length := by omega
    have hcons : a ++ slash :: v = (a ++ [slash]) ++ v := by simp
    have hal : 0 + a.length + 1 = (a ++ [slash]).length := by simp
    dsimp only
    rw [hmin, List.take_left, hal, hcons, List.take_left, List.drop_left,
      nextPart_short hv (short_word hcons hs hv (Or.inr ⟨a, rfl⟩))]
    -- the parent with and without its last slash
    have hcomps : comps (a ++ [slash]) = comps (if a = [] then [slash] else a) := by
      split
      · next ha => rw [ha]; rfl
      · rw [comps, Lib.pieces_append_sep, Lib.pieces_nil, List.append_nil]
        rfl
    have hhead : (a ++ [slash]).head? = (if a = [] then [slash] else a).head? := by
      split
      · next ha => rw [ha]; rfl
      · next ha =>
        obtain ⟨c, a', rfl⟩ := List.exists_cons_of_ne_nil ha
        rfl
    have hsame : t.findDir (a ++ [slash]) = t.findDir (if a = [] then [slash] else a) := by
      unfold Tree.findDir Tree.find
      rw [hcomps, hhead]
    have hshort : Short (if a = [] then [slash] else a) := by
      intro c hc
      rw [← hcomps] at hc
      refine hs c ?_
      rw [comps, Lib.pieces_append_sep]
      rw [comps, Lib.pieces_append_sep, Lib.pieces_nil, List.append_nil] at hc
      exact List.mem_append_left _ hc
    rw [hsame, ← resolveDir_findDir h hshort]
    cases resolveDir (if a = [] then [slash] else a) s with
    | none => rfl
    | some d => rfl

end Resolve

/-! ## Changes -/

theorem freeSlot_sim {s : FS} {t : Tree} (h : Sim s t) :
    freeSlot s = if t.items.length ≥ 64 then none else some t.items.length := by
  cases hf : freeSlot s with
  | none =>
    rw [if_pos]
    by_contra hlt
    have hlt' : t.items.length < fsMax := by
      unfold fsMax
      omega
    have hno := List.find?_eq_none.mp hf _ (List.mem_range.mpr hlt')
    exact absurd ((h.used _ hlt').mp (by simpa using hno)) (Nat.lt_irrefl _)
  | some k =>
    obtain ⟨hk, hfree, hprev⟩ := freeSlot_some hf
    have hge : ¬ k < t.items.length := fun hlt => by
      rw [(h.used k hk).mpr hlt] at hfree
      exact absurd hfree (by simp)
    have hle : ¬ t.items.length < k := fun hlt =>
      absurd ((h.used _ (Nat.lt_trans hlt hk)).mp (hprev _ hlt)) (Nat.lt_irrefl _)
    have hk' : k < 64 := hk
    rw [if_neg (by omega)]
    congr 1
    omega

theorem pathFrom_setNode {s : FS} (h : FsInv s) {k : Nat} (nd : Node)
    (hk : (s.nodes k).used = false) : ∀ (n i : Nat), i < fsMax → (s.nodes i).used = true →
    pathFrom (s.setNode k nd) n i = pathFrom s n i
  | 0, _, _, _ => rfl
  | n + 1, i, hi, hu => by
    have hik : i ≠ k := by
      intro he
      subst he
      rw [hk] at hu
      exact absurd hu (by simp)
    rw [pathFrom, pathFrom, setNode_ne s nd hik]
    split
    · rfl
    · next h0 =>
      obtain ⟨p, hp, -, hd⟩ := h.parent i hi h0 hu
      rw [hp, Int.toNat_natCast, pathFrom_setNode h nd hk n p hd.lt hd.used]

/-- A node is taken and becomes the last item. -/
theorem Sim.insert {s : FS} {t : Tree} (h : Sim s t) {k pdir : Nat} {nd : Node}
    (hd : IsDir s pdir) (hk : freeSlot s = some k) (hnone : findKid pdir nd.name s = none)
    (hname : GoodName nd.name) (hp : nd.parent = pdir) (hu : nd.used = true)
    (hdata : nd.isDir = false → nd.datalen ≤ fileMax) :
    Sim (s.setNode k nd)
      { t with items := t.items ++ [(pathOf s pdir ++ [nd.name], itemOf nd)] } := by
  obtain ⟨hklt, hfree, -⟩ := freeSlot_some hk
  have hkn : k = t.items.length := by
    have hsim := freeSlot_sim h
    rw [hk] at hsim
    split at hsim
    · exact absurd hsim (by simp)
    · exact Option.some.inj hsim
  have hinv : FsInv (s.setNode k nd) := h.inv.insert hd hk hnone hname hp hu hdata
  have hpath : ∀ {i : Nat}, i < fsMax → (s.nodes i).used = true →
      pathOf (s.setNode k nd) i = pathOf s i := fun hi hui =>
    pathFrom_setNode h.inv nd hfree _ _ hi hui
  have hlen : (t.items ++ [(pathOf s pdir ++ [nd.name], itemOf nd)]).length = k + 1 := by
    rw [List.length_append, ← hkn]
    rfl
  refine ⟨hinv, h.ram, by rw [hlen]; exact hklt, fun i hi => ?_, ?_, ?_⟩
  · rw [hlen]
    by_cases hik : i = k
    · rw [hik, setNode_same]
      simp [hu]
    · rw [setNode_ne s nd hik, h.used i hi, ← hkn]
      omega
  · rw [hlen]
    dsimp only
    rw [List.range_succ, List.map_append]
    congr 1
    · have hitems := h.items
      rw [← hkn] at hitems
      rw [hitems]
      refine List.map_congr_left fun i hi => ?_
      have hik := List.mem_range.mp hi
      have hilt : i < fsMax := by omega
      have hui : (s.nodes i).used = true := (h.used i hilt).mpr (by omega)
      rw [hpath hilt hui, setNode_ne s nd (by omega)]
    · have hchild := @pathOf_child (s.setNode k nd) hinv k pdir hklt
        (by rw [setNode_same]; exact hu)
        (by rw [setNode_same]; exact hp)
      rw [setNode_same, hpath hd.lt hd.used] at hchild
      rw [List.map_singleton, hchild, setNode_same]
  · rw [h.cwd]
    exact (hpath h.inv.cwd.lt h.inv.cwd.used).symm

theorem itemOf_store {n : Node} {buf : Str} (hn : n.isDir = false) :
    itemOf (n.store buf) = .file buf := by
  have hd : (n.store buf).isDir = false := hn
  have hbytes : (List.range (n.store buf).datalen).map (n.store buf).data = buf := by
    have htake := Lib.take_eq_map_getD (Nat.le_refl buf.length)
    rw [List.take_length] at htake
    refine Eq.trans (List.map_congr_left fun i hi => ?_) htake
    exact if_pos (List.mem_range.mp hi)
  rw [itemOf_file hd, hbytes]

theorem pathFrom_store (s : FS) (k : Nat) (buf : Str) : ∀ (n i : Nat),
    pathFrom (s.setNode k ((s.nodes k).store buf)) n i = pathFrom s n i
  | 0, _ => rfl
  | n + 1, i => by
    have hsame : ((s.setNode k ((s.nodes k).store buf)).nodes i).parent = (s.nodes i).parent ∧
        ((s.setNode k ((s.nodes k).store buf)).nodes i).name = (s.nodes i).name := by
      by_cases hik : i = k
      · rw [hik, setNode_same]
        exact ⟨rfl, rfl⟩
      · rw [setNode_ne _ _ hik]
        exact ⟨rfl, rfl⟩
    rw [pathFrom, pathFrom, hsame.1, hsame.2, pathFrom_store s k buf n]

/-- A file gets other contents and stays where it is in the order. -/
theorem Sim.store {s : FS} {t : Tree} (h : Sim s t) {k : Nat} {buf : Str} (hk : k < fsMax)
    (hu : (s.nodes k).used = true) (hfile : (s.nodes k).isDir = false)
    (hlen : buf.length ≤ fileMax) :
    Sim (s.setNode k ((s.nodes k).store buf))
      { t with items := t.items.map fun e => if e.1 = pathOf s k then (e.1, .file buf)
        else e } := by
  have hpath : ∀ i, pathOf (s.setNode k ((s.nodes k).store buf)) i = pathOf s i := fun i =>
    pathFrom_store s k buf i i
  refine ⟨h.inv.store hlen, h.ram, by rw [List.length_map]; exact h.le, fun i hi => ?_, ?_, ?_⟩
  · rw [List.length_map, ← h.used i hi]
    by_cases hik : i = k
    · rw [hik, setNode_same]
      rfl
    · rw [setNode_ne _ _ hik]
  · rw [List.length_map]
    dsimp only
    conv_lhs => rw [h.items]
    rw [List.map_map]
    refine List.map_congr_left fun i hi => ?_
    have hin := List.mem_range.mp hi
    have hilt : i < fsMax := Nat.lt_of_lt_of_le hin h.le
    have hui := (h.used i hilt).mpr hin
    rw [hpath, Function.comp_apply]
    by_cases hik : i = k
    · rw [hik, setNode_same, itemOf_store hfile]
      exact if_pos rfl
    · rw [setNode_ne _ _ hik]
      exact if_neg fun he => hik (pathOf_inj h.inv hilt hui hk hu he)
  · rw [h.cwd]
    exact (hpath _).symm

theorem Sim.goto {s : FS} {t : Tree} (h : Sim s t) {d : Nat} (hd : IsDir s d) :
    Sim { s with cwd := d } { t with cwd := pathOf s d } := by
  have hpath : ∀ n i, pathFrom { s with cwd := d } n i = pathFrom s n i := by
    intro n
    induction n with
    | zero => exact fun _ => rfl
    | succ n ih =>
      intro i
      rw [pathFrom, pathFrom, ih]
  refine ⟨h.inv.goto hd, h.ram, h.le, h.used, ?_, (hpath _ _).symm⟩
  dsimp only
  conv_lhs => rw [h.items]
  refine List.map_congr_left fun i _ => ?_
  rw [pathOf, pathOf, hpath]

/-! ## Listing and the current directory -/

theorem listLoop_free (s : FS) (dir cap : Nat) : ∀ {js : List Nat} {out : Str},
    (∀ j ∈ js, (s.nodes j).used = false) → listLoop s dir cap js out = out
  | [], _, _ => rfl
  | j :: js, out, hj => by
    have hno : (!(s.nodes j).used) = true := by rw [hj j (by simp)]; rfl
    rw [listLoop, if_pos (Or.inl hno)]
    exact listLoop_free s dir cap fun x hx => hj x (List.mem_cons_of_mem _ hx)

theorem listLoop_unused (s : FS) (dir cap : Nat) {js : List Nat}
    (hj : ∀ j ∈ js, (s.nodes j).used = false) : ∀ (is : List Nat) (out : Str),
    listLoop s dir cap (is ++ js) out = listLoop s dir cap is out
  | [], out => listLoop_free s dir cap hj
  | i :: is, out => by
    rw [List.cons_append, listLoop, listLoop]
    split
    · exact listLoop_unused s dir cap hj is out
    · split
      · rfl
      · exact listLoop_unused s dir cap hj is _

theorem listLoop_lines {s : FS} {t : Tree} (h : Sim s t) {dir : Nat} (hd : IsDir s dir)
    (cap : Nat) :
    ∀ (is : List Nat) (out : Str), (∀ i ∈ is, i < fsMax ∧ (s.nodes i).used = true) →
    listLoop s dir cap is out = Tree.lines cap
      (Tree.children ⟨t.cwd, is.map fun i => (pathOf s i, itemOf (s.nodes i))⟩ (pathOf s dir)) out
  | [], out, _ => rfl
  | i :: is, out, his => by
    obtain ⟨hi, hu⟩ := his i (by simp)
    have hrec := fun out => listLoop_lines h hd cap is out fun x hx =>
      his x (List.mem_cons_of_mem _ hx)
    unfold Tree.children at hrec ⊢
    dsimp only at hrec ⊢
    rw [listLoop, List.map_cons, List.filterMap_cons]
    by_cases hp : (s.nodes i).parent = dir
    · have hpath := pathOf_child h.inv hi hu hp
      have hyes : pathOf s i ≠ [] ∧ (pathOf s i).dropLast = pathOf s dir := by
        rw [hpath, List.dropLast_concat]
        simp
      rw [if_neg (by simp [hu, hp]), if_pos hyes]
      dsimp only
      rw [hpath, List.getLastD_concat, Tree.lines]
      have hroom : (out.length + (s.nodes i).name.length + 2 > cap) =
          ((s.nodes i).name.length + 2 + out.length > cap) := by
        congr 1
        omega
      simp only [hroom, itemOf_dir]
      split
      · rfl
      · exact hrec _
    · have hno : ¬ (pathOf s i ≠ [] ∧ (pathOf s i).dropLast = pathOf s dir) := by
        intro h
        obtain ⟨hne, hdrop⟩ := h
        have h0 : i ≠ 0 := by
          intro he
          subst he
          exact hne rfl
        obtain ⟨p, hpe, -, hpd, hpath⟩ := pathOf_split h.inv hi hu h0
        rw [hpath, List.dropLast_concat] at hdrop
        exact hp (by rw [hpe, pathOf_inj h.inv hpd.lt hpd.used hd.lt hd.used hdrop])
      rw [if_pos (Or.inr hp), if_neg hno]
      exact hrec out

theorem listLoop_children {s : FS} {t : Tree} (h : Sim s t) {dir : Nat} (hd : IsDir s dir)
    (cap : Nat) : listLoop s dir cap (List.range fsMax) []
      = Tree.lines cap (t.children (pathOf s dir)) [] := by
  have hsplit : List.range fsMax = List.range t.items.length
      ++ List.range' t.items.length (fsMax - t.items.length) := by
    have hle := h.le
    have happ := List.range'_append_1 (s := 0) (m := t.items.length) (n := fsMax - t.items.length)
    rw [Nat.zero_add, Nat.add_sub_cancel' hle] at happ
    rw [List.range_eq_range', List.range_eq_range', happ]
  have hused : ∀ i ∈ List.range t.items.length, i < fsMax ∧ (s.nodes i).used = true := fun i hi =>
    have hlt := Nat.lt_of_lt_of_le (List.mem_range.mp hi) h.le
    ⟨hlt, (h.used i hlt).mpr (List.mem_range.mp hi)⟩
  have hfree : ∀ j ∈ List.range' t.items.length (fsMax - t.items.length),
      (s.nodes j).used = false := by
    intro j hj
    obtain ⟨hge, hlt⟩ := List.mem_range'_1.mp hj
    have hle := h.le
    have hno : ¬ (s.nodes j).used = true := fun hu => by
      have := (h.used j (by omega)).mp hu
      omega
    simpa using hno
  rw [hsplit, listLoop_unused s dir cap hfree, listLoop_lines h hd cap _ _ hused, ← h.items]

theorem cwdStack_names {s : FS} (h : FsInv s) : ∀ (k cur : Nat) (st : List Nat), cur ≤ k →
    cur < fsMax → (s.nodes cur).used = true →
    (cwdStack s k cur st).map (fun i => (s.nodes i).name)
      = pathOf s cur ++ st.map fun i => (s.nodes i).name
  | 0, cur, st, hk, _, _ => by
    obtain rfl : cur = 0 := by omega
    rfl
  | k + 1, cur, st, hk, hlt, hu => by
    rw [cwdStack]
    split
    · next h0 =>
      obtain ⟨p, hp, hpc, hpd, hpath⟩ := pathOf_split h hlt hu h0
      rw [hp, Int.toNat_natCast, cwdStack_names h k p _ (by omega) hpd.lt hpd.used, hpath]
      simp
    · next h0 =>
      obtain rfl : cur = 0 := by simpa using h0
      rfl

theorem cwdEmit_slashed (s : FS) (cap : Nat) : ∀ (is : List Nat) (out : Str),
    cwdEmit s cap is out = Tree.slashed cap (is.map fun i => (s.nodes i).name) out
  | [], _ => rfl
  | i :: is, out => by
    have hroom : (out.length + (s.nodes i).name.length + 2 > cap) =
        ((s.nodes i).name.length + 2 + out.length > cap) := by
      congr 1
      omega
    rw [cwdEmit, List.map_cons, Tree.slashed, cwdEmit_slashed s cap is]
    simp only [hroom]

/-! ## The calls -/

/-- A call on the RAM file system whose path is short, as a whole and in its components. -/
def Call.Ram : Call → Prop
  | .mkdir p => p.length ≤ 127 ∧ Short p
  | .fwrite p _ => p.length ≤ 127 ∧ Short p
  | .chdir p => p.length ≤ 127 ∧ Short p
  | .listdir p _ => p.length ≤ 127 ∧ Short p
  | .getcwd _ => True
  | .freadRam p _ => p.length ≤ 127 ∧ Short p
  | .mountPart _ => False
  | .unmount => False

theorem badLeaf_eq (nm : Str) : badLeaf nm = Tree.badName nm := by
  have hsame : ∀ x, sameCondition nm x = (nm == x) := fun x => by
    by_cases hx : nm = x
    · rw [sameCondition_iff.mpr hx, hx]
      simp
    · rw [Bool.eq_false_iff.mpr fun hs => hx (sameCondition_iff.mp hs)]
      simp [hx]
  have hnil : decide (nm = []) = (nm == []) := by cases nm <;> simp
  rw [badLeaf, Tree.badName, hsame, hsame, hnil]

section Calls

variable {s : FS} {t : Tree} (h : Sim s t)

include h

/-- Where a path is split, on both sides. -/
theorem split_cases {path : Str} (hlen : path.length ≤ 127) (hs : Short path) :
    splitParent path s = none ∧ t.split path = none ∨
    ∃ d p, splitParent path s = some (d, nextPart p) ∧ IsDir s d ∧
      t.split path = some (pathOf s d, nextPart p) := by
  have hsplit := splitParent_split h hlen hs
  cases hsp : splitParent path s with
  | none =>
    rw [hsp] at hsplit
    exact Or.inl ⟨rfl, hsplit.symm⟩
  | some r =>
    obtain ⟨d, leaf⟩ := r
    obtain ⟨hd, p, rfl⟩ := splitParent_spec h.inv hsp
    rw [hsp] at hsplit
    exact Or.inr ⟨d, p, rfl, hd, hsplit.symm⟩

theorem fsMkdir_sim {arg : Str} (hlen : arg.length ≤ 127) (hs : Short arg) :
    (fsMkdir arg s).1 = (t.mkdir arg).1 ∧ Sim (fsMkdir arg s).2 (t.mkdir arg).2 := by
  unfold fsMkdir Tree.mkdir
  rw [if_neg h.not_mounted]
  by_cases harg : arg = []
  · rw [if_pos harg, if_pos harg]
    exact ⟨rfl, h⟩
  · rw [if_neg harg, if_neg harg]
    rcases split_cases h hlen hs with ⟨h1, h2⟩ | ⟨d, p, h1, hd, h2⟩
    · rw [h1, h2]
      exact ⟨rfl, h⟩
    · rw [h1, h2]
      dsimp only
      rw [badLeaf_eq, h.findKid_lookup hd, Option.isSome_map, freeSlot_sim h]
      split
      · exact ⟨rfl, h⟩
      · next hbad =>
        split
        · exact ⟨rfl, h⟩
        · next hkid =>
          by_cases hfull : t.items.length ≥ 64
          · rw [if_pos hfull, if_pos hfull]
            exact ⟨rfl, h⟩
          · have hfree := freeSlot_sim h
            rw [if_neg hfull] at hfree
            rw [if_neg hfull, if_neg hfull]
            refine ⟨rfl, ?_⟩
            have hgood := goodName_of_leaf (by rw [badLeaf_eq]; exact Bool.eq_false_iff.mpr hbad)
            have hnone : findKid d (nextPart p) s = none := by simpa using hkid
            dsimp only
            rw [nameCp_nextPart]
            exact h.insert hd hfree hnone hgood rfl rfl (by simp)

theorem fsFwrite_sim {path buf : Str} (fuel : Nat) (hlen : path.length ≤ 127) (hs : Short path) :
    ∃ s', fsFwrite fuel path buf s = some ((t.fwrite path buf).1, s') ∧
      Sim s' (t.fwrite path buf).2 := by
  unfold fsFwrite Tree.fwrite
  rw [if_neg h.not_mounted]
  by_cases hpath : path = []
  · rw [if_pos hpath, if_pos hpath]
    exact ⟨s, rfl, h⟩
  · rw [if_neg hpath, if_neg hpath]
    by_cases hbig : buf.length > fileMax
    · rw [if_pos hbig, if_pos (show buf.length > 4096 from hbig)]
      exact ⟨s, rfl, h⟩
    · rw [if_neg hbig, if_neg (show ¬ buf.length > 4096 from hbig)]
      rcases split_cases h hlen hs with ⟨h1, h2⟩ | ⟨d, p, h1, hd, h2⟩
      · rw [h1, h2]
        exact ⟨s, rfl, h⟩
      · rw [h1, h2]
        dsimp only
        rw [badLeaf_eq, h.findKid_lookup hd]
        by_cases hbad : Tree.badName (nextPart p) = true
        · rw [if_pos hbad, if_pos hbad]
          exact ⟨s, rfl, h⟩
        · rw [if_neg hbad, if_neg hbad]
          have hgood := goodName_of_leaf (by rw [badLeaf_eq]; exact Bool.eq_false_iff.mpr hbad)
          cases hkid : findKid d (nextPart p) s with
          | some k =>
            obtain ⟨hk, hu, -, -⟩ := findKid_some hkid
            dsimp only [Option.map_some]
            cases hdir : (s.nodes k).isDir with
            | true =>
              rw [itemOf_dir.mpr hdir, if_pos rfl]
              exact ⟨s, rfl, h⟩
            | false =>
              rw [itemOf_file hdir, if_neg (by simp), ← h.pathOf_kid hkid]
              exact ⟨_, rfl, h.store hk hu hdir (Nat.le_of_not_lt hbig)⟩
          | none =>
            dsimp only [Option.map_none]
            rw [freeSlot_sim h]
            by_cases hfull : t.items.length ≥ 64
            · rw [if_pos hfull, if_pos hfull]
              exact ⟨s, rfl, h⟩
            · have hfree := freeSlot_sim h
              rw [if_neg hfull] at hfree
              rw [if_neg hfull, if_neg hfull]
              dsimp only
              rw [nameCp_nextPart]
              refine ⟨_, rfl, ?_⟩
              have hitem := @itemOf_store { s.nodes t.items.length with
                name := nextPart p, parent := d, isDir := false, used := true,
                mode := 0o644 } buf rfl
              rw [← hitem]
              exact h.insert hd hfree hkid hgood rfl rfl fun _ => Nat.le_of_not_lt hbig

theorem fsChdir_sim {path : Str} (fuel : Nat) (hs : Short path) :
    ∃ s', fsChdir fuel path s = some ((t.chdir path).1, s') ∧ Sim s' (t.chdir path).2 := by
  unfold fsChdir Tree.chdir
  rw [if_neg h.not_mounted]
  by_cases hpath : path = []
  · rw [if_pos hpath, if_pos hpath]
    exact ⟨_, rfl, h.goto h.inv.root⟩
  · rw [if_neg hpath, if_neg hpath, ← resolveDir_findDir h hs]
    cases hr : resolveDir path s with
    | none => exact ⟨s, rfl, h⟩
    | some d => exact ⟨_, rfl, h.goto (resolveDir_isDir h.inv hr)⟩

theorem fsListdir_sim {path : Str} (fuel cap : Nat) (hs : Short path) :
    fsListdir fuel path cap s = some (t.listdir path cap, s) := by
  unfold fsListdir Tree.listdir
  rw [if_neg h.not_mounted]
  dsimp only
  by_cases hpath : path = []
  · rw [if_pos hpath, if_pos hpath, h.cwd, listLoop_children h h.inv.cwd cap]
  · rw [if_neg hpath, if_neg hpath, ← resolveDir_findDir h hs]
    cases hr : resolveDir path s with
    | none => rfl
    | some d =>
      dsimp only [Option.map_some]
      rw [listLoop_children h (resolveDir_isDir h.inv hr) cap]

theorem fsGetcwd_sim (cap : Nat) : fsGetcwd cap s = t.getcwd cap := by
  unfold fsGetcwd Tree.getcwd
  have hcwd := h.inv.cwd
  have hnil : t.cwd = [] ↔ s.cwd = 0 := by
    rw [h.cwd]
    exact pathOf_eq_nil h.inv hcwd.lt hcwd.used
  have hlt : s.cwd ≤ fsMax := Nat.le_of_lt hcwd.lt
  rw [if_neg h.not_mounted, cwdEmit_slashed, cwdStack_names h.inv _ _ _ hlt hcwd.lt hcwd.used,
    List.map_nil, List.append_nil, ← h.cwd]
  refine if_congr Iff.rfl rfl ?_
  by_cases hroot : s.cwd = 0
  · exact (if_pos hroot).trans (if_pos (hnil.mpr hroot)).symm
  · exact (if_neg hroot).trans (if_neg (mt hnil.mp hroot)).symm

theorem fsFreadRam_sim {path : Str} (cap : Nat) (hs : Short path) :
    fsFreadRam path cap s = t.fread path cap := by
  unfold fsFreadRam Tree.fread
  rw [← resolve_find h hs]
  cases hr : resolve path s with
  | none => rfl
  | some d =>
    obtain ⟨hd, hu⟩ := resolve_used h.inv hr
    dsimp only [Option.map_some]
    rw [h.lookup_pathOf hd hu]
    cases hdir : (s.nodes d).isDir with
    | true =>
      rw [itemOf_dir.mpr hdir]
      rfl
    | false =>
      rw [if_neg (by simp), itemOf_file hdir]
      dsimp only
      have hn : (if (s.nodes d).datalen > cap then cap else (s.nodes d).datalen)
          = min cap (s.nodes d).datalen := by
        split <;> omega
      rw [hn, ← List.map_take, List.take_range, List.length_map, List.length_range]

/-- **Every call does the same on both sides.** -/
theorem run_sim (fuel : Nat) {c : Call} (hc : c.Ram) :
    ∃ s', c.run fuel s = some ((t.run c).1, s') ∧ Sim s' (t.run c).2 := by
  cases c with
  | mkdir arg =>
    obtain ⟨hret, hsim⟩ := fsMkdir_sim h hc.1 hc.2
    refine ⟨_, ?_, hsim⟩
    rw [Call.run, hret]
    rfl
  | fwrite path buf =>
    obtain ⟨s', hrun, hsim⟩ := @fsFwrite_sim _ _ h path buf fuel hc.1 hc.2
    refine ⟨s', ?_, hsim⟩
    rw [Call.run, hrun]
    rfl
  | chdir path =>
    obtain ⟨s', hrun, hsim⟩ := fsChdir_sim h fuel hc.2
    refine ⟨s', ?_, hsim⟩
    rw [Call.run, hrun]
    rfl
  | listdir path cap => exact ⟨s, fsListdir_sim h fuel cap hc.2, h⟩
  | getcwd cap =>
    refine ⟨s, ?_, h⟩
    rw [Call.run, fsGetcwd_sim h]
    rfl
  | freadRam path cap =>
    refine ⟨s, ?_, h⟩
    rw [Call.run, fsFreadRam_sim h cap hc.2]
    rfl
  | mountPart idx => exact hc.elim
  | unmount => exact hc.elim

end Calls

/-! ## Histories -/

theorem fsInit_sim {s : FS} (hm : s.mounted = false) : Sim (fsInit s) Tree.init := by
  refine ⟨fsInit_inv s, hm, by decide, fun i hi => ?_, rfl, rfl⟩
  by_cases h0 : i = 0
  · subst h0
    exact ⟨fun _ => by decide, fun _ => rfl⟩
  · simp only [fsInit, if_neg h0, if_pos hi]
    refine ⟨fun hu => absurd hu (by simp), fun hlt => ?_⟩
    have hone : i < 1 := hlt
    omega

theorem runCalls_sim (fuel : Nat) : ∀ {calls : List Call} {s : FS} {t : Tree}, Sim s t →
    (∀ c ∈ calls, c.Ram) → ∃ s', runCalls fuel calls s = some ((t.runAll calls).1, s') ∧
      Sim s' (t.runAll calls).2
  | [], s, _, h, _ => ⟨s, rfl, h⟩
  | c :: cs, s, t, h, hc => by
    obtain ⟨s₁, hrun, h₁⟩ := run_sim h fuel (hc c (by simp))
    obtain ⟨s', hrest, h'⟩ := runCalls_sim fuel h₁ fun x hx => hc x (List.mem_cons_of_mem _ hx)
    refine ⟨s', ?_, h'⟩
    rw [runCalls, hrun]
    dsimp only
    rw [hrest]
    rfl

/-- **The file server refines the tree.** Whatever calls are made since `fs_init` with
nothing mounted, each returns the code and stores the bytes the tree gives; the tree never
has more than 64 items, and where it reports an error it stays as it is. -/
theorem runCalls_runAll {s : FS} (hm : s.mounted = false) (fuel : Nat) {calls : List Call}
    (hc : ∀ c ∈ calls, c.Ram) :
    (∃ s', runCalls fuel calls (fsInit s) = some ((Tree.init.runAll calls).1, s')) ∧
      (Tree.init.runAll calls).2.items.length ≤ 64 ∧
      ∀ (t : Tree) (c : Call), (t.run c).1.1 < 0 → (t.run c).2 = t := by
  obtain ⟨s', hrun, hsim⟩ := runCalls_sim fuel (fsInit_sim hm) hc
  exact ⟨⟨s', hrun⟩, hsim.le, Tree.run_error⟩

/-- A directory is made and entered, a file written there, and the parent listed. -/
theorem runCalls_runAll_bare : ∃ s', runCalls 0 [.mkdir [97], .chdir [slash, 97],
      .fwrite [98] [1, 2], .freadRam [98] 1, .listdir [dot, dot] 9, .getcwd 8] (fsInit bareFS)
    = some ([(0, []), (0, []), (0, []), (1, [1]), (3, [97, slash, 10]), (2, [slash, 97, 0])],
        s') := by
  have hc : ∀ c ∈ [Call.mkdir [97], .chdir [slash, 97], .fwrite [98] [1, 2], .freadRam [98] 1,
      .listdir [dot, dot] 9, .getcwd 8], c.Ram := by
    intro c hc
    simp only [List.mem_cons, List.not_mem_nil, or_false] at hc
    rcases hc with rfl | rfl | rfl | rfl | rfl | rfl
    all_goals first | exact ⟨by decide, by unfold Short; decide⟩ | exact trivial
  obtain ⟨⟨s', hrun⟩, -⟩ := runCalls_runAll (s := bareFS) rfl 0 hc
  refine ⟨s', hrun.trans ?_⟩
  have hout : (Tree.init.runAll [.mkdir [97], .chdir [slash, 97], .fwrite [98] [1, 2],
      .freadRam [98] 1, .listdir [dot, dot] 9, .getcwd 8]).1
      = [(0, []), (0, []), (0, []), (1, [1]), (3, [97, slash, 10]), (2, [slash, 97, 0])] := by
    decide +kernel
  rw [hout]

end InaneOS.Fs
