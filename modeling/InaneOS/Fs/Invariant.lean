import InaneOS.Fs.Nodes
import InaneOS.Fat.Paths

/-!
# What always holds of the node table

`FsInv` is the shape every history keeps: the used nodes are a tree with the root
in slot 0, with proper and unique names, and the current directory is one of its
directories. Slots are taken in order and never given back (`packed`), which is
why a parent always has a smaller index than its children, and why the loops that
climb to the root end.

Each function has one lemma: a scan says what it found (`findKid_some`,
`freeSlot_some`), `resolve` and `splitParent` land on a used node, a new node and
a new file content keep the invariant (`FsInv.insert`, `FsInv.store`).
`runCalls_inv` follows by induction over the calls.
-/

namespace InaneOS.Fs

open InaneOS.Fat

/-- A name a node other than the root may have. -/
structure GoodName (nm : Str) : Prop where
  pos : 1 ≤ nm.length
  le : nm.length ≤ 31
  slash : slash ∉ nm
  dot : nm ≠ [dot]
  dots : nm ≠ [Fat.dot, Fat.dot]

/-- Node `i` is a used directory. -/
structure IsDir (s : FS) (i : Nat) : Prop where
  lt : i < fsMax
  used : (s.nodes i).used = true
  dir : (s.nodes i).isDir = true

structure FsInv (s : FS) : Prop where
  root : IsDir s 0
  rootParent : (s.nodes 0).parent = -1
  parent : ∀ i < fsMax, i ≠ 0 → (s.nodes i).used = true →
    ∃ p : Nat, (s.nodes i).parent = p ∧ p < i ∧ IsDir s p
  name : ∀ i < fsMax, i ≠ 0 → (s.nodes i).used = true → GoodName (s.nodes i).name
  uniq : ∀ i < fsMax, ∀ j < fsMax, (s.nodes i).used = true → (s.nodes j).used = true →
    (s.nodes i).parent = (s.nodes j).parent → (s.nodes i).name = (s.nodes j).name → i = j
  data : ∀ i < fsMax, (s.nodes i).used = true → (s.nodes i).isDir = false →
    (s.nodes i).datalen ≤ fileMax
  cwd : IsDir s s.cwd
  /-- Slots are taken in order. -/
  packed : ∀ i < fsMax, ∀ j ≤ i, (s.nodes i).used = true → (s.nodes j).used = true

theorem sameCondition_iff {a b : Str} : sameCondition a b = true ↔ a = b := nameSame_iff

theorem setNode_same (s : FS) (k : Nat) (n : Node) : (s.setNode k n).nodes k = n := if_pos rfl

theorem setNode_ne (s : FS) {k i : Nat} (n : Node) (h : i ≠ k) :
    (s.setNode k n).nodes i = s.nodes i := if_neg h

/-! ## Scans -/

theorem findKid_some {dir k : Nat} {nm : Str} {s : FS} (h : findKid dir nm s = some k) :
    k < fsMax ∧ (s.nodes k).used = true ∧ (s.nodes k).parent = dir ∧ (s.nodes k).name = nm := by
  have hp := List.find?_some h
  have hm := List.mem_of_find?_eq_some h
  simp only [Bool.and_eq_true, decide_eq_true_eq, sameCondition_iff] at hp
  exact ⟨List.mem_range.mp hm, hp.1.1, hp.1.2, hp.2⟩

theorem findKid_none {dir : Nat} {nm : Str} {s : FS} (h : findKid dir nm s = none) {i : Nat}
    (hi : i < fsMax) (hu : (s.nodes i).used = true) (hp : (s.nodes i).parent = dir) :
    (s.nodes i).name ≠ nm := by
  intro hn
  have hno := List.find?_eq_none.mp h i (List.mem_range.mpr hi)
  simp only [Bool.and_eq_true, decide_eq_true_eq, sameCondition_iff] at hno
  exact hno ⟨⟨hu, hp⟩, hn⟩

theorem freeSlot_some {k : Nat} {s : FS} (h : freeSlot s = some k) :
    k < fsMax ∧ (s.nodes k).used = false ∧ ∀ j < k, (s.nodes j).used = true := by
  obtain ⟨hp, as, bs, heq, has⟩ := List.find?_eq_some_iff_append.mp h
  have hk : k ∈ List.range fsMax := by rw [heq]; simp
  refine ⟨List.mem_range.mp hk, by simpa using hp, fun j hj => ?_⟩
  -- the slots before `k` are those the scan passed
  have hlen : as.length = k := by
    have hget : (List.range fsMax)[as.length]? = some k := by rw [heq]; simp
    rw [List.getElem?_range (by
      have := congrArg List.length heq
      simp only [List.length_range, List.length_append, List.length_cons] at this
      omega)] at hget
    exact Option.some.inj hget
  have hmem : j ∈ as := by
    have hget : (List.range fsMax)[j]? = some j :=
      List.getElem?_range (Nat.lt_trans hj (List.mem_range.mp hk))
    rw [heq, List.getElem?_append_left (by omega)] at hget
    exact List.mem_of_getElem? hget
  simpa using has j hmem

/-! ## Paths -/

theorem compLen_le : ∀ (n : Nat) (p : Str), compLen n p ≤ n
  | 0, _ => Nat.le_refl _
  | _ + 1, [] => Nat.zero_le _
  | n + 1, c :: p => by
    rw [compLen]
    split
    · exact Nat.zero_le _
    · exact Nat.succ_le_succ (compLen_le n p)

theorem compLen_slash : ∀ (n : Nat) (p : Str), slash ∉ p.take (compLen n p)
  | 0, _ => by simp [compLen]
  | _ + 1, [] => by simp [compLen]
  | n + 1, c :: p => by
    rw [compLen]
    split
    · simp
    · next hc =>
      rw [List.take_succ_cons]
      exact List.not_mem_cons_of_ne_of_not_mem (Ne.symm hc) (compLen_slash n p)

/-- A part is short and has no slash. -/
theorem nextPart_spec (p : Str) : (nextPart p).length ≤ 31 ∧ slash ∉ nextPart p := by
  refine ⟨?_, compLen_slash _ _⟩
  have hle := compLen_le (nameMax - 1) (skipSlash p)
  rw [nextPart, List.length_take]
  exact Nat.le_trans (Nat.min_le_left _ _) hle

/-- What a leaf is stored as. -/
theorem nameCp_nextPart (p : Str) : nameCp (nextPart p) = nextPart p :=
  List.take_of_length_le (nextPart_spec p).1

/-- The leaf checks leave a good name. -/
theorem goodName_of_leaf {p : Str} (h : badLeaf (nextPart p) = false) : GoodName (nextPart p) := by
  obtain ⟨hle, hs⟩ := nextPart_spec p
  simp only [badLeaf, Bool.or_eq_false_iff, decide_eq_false_iff_not] at h
  obtain ⟨⟨hne, hdot⟩, hdots⟩ := h
  refine ⟨List.length_pos_iff.mpr hne, hle, hs, fun he => ?_, fun he => ?_⟩
  · rw [sameCondition_iff.mpr he] at hdot
    exact absurd hdot (by simp)
  · rw [sameCondition_iff.mpr he] at hdots
    exact absurd hdots (by simp)

section Inv

variable {s : FS} (h : FsInv s)

include h

/-- `resolve` follows used nodes only. -/
theorem resolveLoop_used : ∀ (k : Nat) (path : Str) (cur r : Nat), cur < fsMax →
    (s.nodes cur).used = true → resolveLoop s k path cur = some r →
    r < fsMax ∧ (s.nodes r).used = true
  | 0, _, cur, r, hlt, hu, hr => by
    obtain rfl : cur = r := Option.some.inj hr
    exact ⟨hlt, hu⟩
  | k + 1, path, cur, r, hlt, hu, hr => by
    unfold resolveLoop at hr
    dsimp only at hr
    split at hr
    · obtain rfl : cur = r := Option.some.inj hr
      exact ⟨hlt, hu⟩
    · split at hr
      · exact resolveLoop_used k _ cur r hlt hu hr
      · split at hr
        · split at hr
          · next hp =>
            by_cases h0 : cur = 0
            · rw [h0, h.rootParent] at hp
              omega
            · obtain ⟨p, hpe, hpc, hpd⟩ := h.parent cur hlt h0 hu
              rw [hpe] at hr
              exact resolveLoop_used k _ p r hpd.lt hpd.used hr
          · exact resolveLoop_used k _ cur r hlt hu hr
        · split at hr
          · exact absurd hr (by simp)
          · next j hj =>
            obtain ⟨hjlt, hju, -, -⟩ := findKid_some hj
            split at hr
            · exact absurd hr (by simp)
            · exact resolveLoop_used k _ j r hjlt hju hr

theorem resolve_used {path : Str} {r : Nat} (hr : resolve path s = some r) :
    r < fsMax ∧ (s.nodes r).used = true := by
  have hstart : (if path.head? = some slash then 0 else s.cwd) < fsMax ∧
      (s.nodes (if path.head? = some slash then 0 else s.cwd)).used = true := by
    split
    · exact ⟨h.root.lt, h.root.used⟩
    · exact ⟨h.cwd.lt, h.cwd.used⟩
  unfold resolve at hr
  dsimp only at hr
  split at hr
  · rw [← Option.some.inj hr]
    exact hstart
  · exact resolveLoop_used h _ _ _ _ hstart.1 hstart.2 hr

theorem resolveDir_isDir {path : Str} {r : Nat} (hr : resolveDir path s = some r) : IsDir s r := by
  unfold resolveDir at hr
  split at hr
  · exact absurd hr (by simp)
  · next d hd =>
    obtain ⟨hlt, hu⟩ := resolve_used h hd
    split at hr
    · exact absurd hr (by simp)
    · next hdir =>
      obtain rfl : d = r := Option.some.inj hr
      exact ⟨hlt, hu, by simpa using hdir⟩

theorem splitParent_spec {arg leaf : Str} {pdir : Nat}
    (hr : splitParent arg s = some (pdir, leaf)) :
    IsDir s pdir ∧ ∃ p, leaf = nextPart p := by
  unfold splitParent at hr
  split at hr
  · dsimp only at hr
    split at hr
    · exact absurd hr (by simp)
    · next d hd =>
      simp only [Option.some.injEq, Prod.mk.injEq] at hr
      obtain ⟨rfl, rfl⟩ := hr
      exact ⟨resolveDir_isDir h hd, _, rfl⟩
  · simp only [Option.some.injEq, Prod.mk.injEq] at hr
    obtain ⟨rfl, rfl⟩ := hr
    exact ⟨h.cwd, _, rfl⟩

/-! ## Changes -/

/-- A node that is not used yet becomes a child of a directory. -/
theorem FsInv.insert {k pdir : Nat} {nd : Node} (hd : IsDir s pdir) (hk : freeSlot s = some k)
    (hnone : findKid pdir nd.name s = none) (hname : GoodName nd.name)
    (hp : nd.parent = pdir) (hu : nd.used = true)
    (hdata : nd.isDir = false → nd.datalen ≤ fileMax) : FsInv (s.setNode k nd) := by
  obtain ⟨hklt, hkfree, hkprev⟩ := freeSlot_some hk
  have hne : ∀ {i : Nat}, (s.nodes i).used = true → i ≠ k := by
    intro i hi he
    subst he
    rw [hkfree] at hi
    exact absurd hi (by simp)
  have hdir : ∀ {i : Nat}, IsDir s i → IsDir (s.setNode k nd) i := fun hi => by
    refine ⟨hi.lt, ?_, ?_⟩
    · rw [setNode_ne s nd (hne hi.used)]
      exact hi.used
    · rw [setNode_ne s nd (hne hi.used)]
      exact hi.dir
  -- everything used so far lies below the new slot
  have hbelow : ∀ {i : Nat}, i < fsMax → (s.nodes i).used = true → i < k := fun {i} hi hui => by
    rcases Nat.lt_or_ge i k with hlt | hge
    · exact hlt
    · have := h.packed i hi k hge hui
      rw [hkfree] at this
      exact absurd this (by simp)
  refine ⟨hdir h.root, ?_, fun i hi h0 hui => ?_, fun i hi h0 hui => ?_,
    fun i hi j hj hui huj hpij hnij => ?_, fun i hi hui hdi => ?_, hdir h.cwd,
    fun i hi j hj hui => ?_⟩
  · rw [setNode_ne s nd (hne h.root.used)]
    exact h.rootParent
  · by_cases hik : i = k
    · subst hik
      rw [setNode_same]
      exact ⟨pdir, hp, hbelow hd.lt hd.used, hdir hd⟩
    · rw [setNode_ne s nd hik] at hui ⊢
      obtain ⟨p, hpe, hpi, hpd⟩ := h.parent i hi h0 hui
      exact ⟨p, hpe, hpi, hdir hpd⟩
  · by_cases hik : i = k
    · rw [hik, setNode_same]
      exact hname
    · rw [setNode_ne s nd hik] at hui ⊢
      exact h.name i hi h0 hui
  · by_cases hik : i = k <;> by_cases hjk : j = k
    · rw [hik, hjk]
    · rw [hik, setNode_same, setNode_ne s nd hjk] at hpij hnij
      rw [setNode_ne s nd hjk] at huj
      exact absurd hnij.symm (findKid_none hnone hj huj (hpij ▸ hp))
    · rw [hjk, setNode_same, setNode_ne s nd hik] at hpij hnij
      rw [setNode_ne s nd hik] at hui
      exact absurd hnij (findKid_none hnone hi hui (hpij ▸ hp))
    · rw [setNode_ne s nd hik, setNode_ne s nd hjk] at hpij hnij
      rw [setNode_ne s nd hik] at hui
      rw [setNode_ne s nd hjk] at huj
      exact h.uniq i hi j hj hui huj hpij hnij
  · by_cases hik : i = k
    · rw [hik, setNode_same] at hdi ⊢
      exact hdata hdi
    · rw [setNode_ne s nd hik] at hui hdi ⊢
      exact h.data i hi hui hdi
  · by_cases hik : i = k
    · by_cases hjk : j = k
      · rw [hjk, setNode_same]
        exact hu
      · rw [setNode_ne s nd hjk]
        exact hkprev j (by omega)
    · rw [setNode_ne s nd hik] at hui
      by_cases hjk : j = k
      · rw [hjk, setNode_same]
        exact hu
      · rw [setNode_ne s nd hjk]
        exact h.packed i hi j hj hui

/-- A node keeps its place and gets other contents. -/
theorem FsInv.store {k : Nat} {buf : Str} (hlen : buf.length ≤ fileMax) :
    FsInv (s.setNode k ((s.nodes k).store buf)) := by
  have hold : ∀ i, ((s.setNode k ((s.nodes k).store buf)).nodes i).used = (s.nodes i).used ∧
      ((s.setNode k ((s.nodes k).store buf)).nodes i).parent = (s.nodes i).parent ∧
      ((s.setNode k ((s.nodes k).store buf)).nodes i).name = (s.nodes i).name ∧
      ((s.setNode k ((s.nodes k).store buf)).nodes i).isDir = (s.nodes i).isDir ∧
      (((s.setNode k ((s.nodes k).store buf)).nodes i).datalen = (s.nodes i).datalen ∨
        ((s.setNode k ((s.nodes k).store buf)).nodes i).datalen = buf.length) := by
    intro i
    by_cases hik : i = k
    · rw [hik, setNode_same]
      exact ⟨rfl, rfl, rfl, rfl, Or.inr rfl⟩
    · rw [setNode_ne _ _ hik]
      exact ⟨rfl, rfl, rfl, rfl, Or.inl rfl⟩
  have hdir : ∀ {i : Nat}, IsDir s i → IsDir (s.setNode k ((s.nodes k).store buf)) i :=
    fun {i} hi =>
    ⟨hi.lt, by rw [(hold i).1]; exact hi.used, by rw [(hold i).2.2.2.1]; exact hi.dir⟩
  refine ⟨hdir h.root, by rw [(hold 0).2.1]; exact h.rootParent, fun i hi h0 hui => ?_,
    fun i hi h0 hui => ?_, fun i hi j hj hui huj hpij hnij => ?_, fun i hi hui hdi => ?_,
    hdir h.cwd, fun i hi j hj hui => ?_⟩
  · rw [(hold i).1] at hui
    obtain ⟨p, hpe, hpi, hpd⟩ := h.parent i hi h0 hui
    exact ⟨p, by rw [(hold i).2.1, hpe], hpi, hdir hpd⟩
  · rw [(hold i).1] at hui
    rw [(hold i).2.2.1]
    exact h.name i hi h0 hui
  · rw [(hold i).1] at hui
    rw [(hold j).1] at huj
    rw [(hold i).2.1, (hold j).2.1] at hpij
    rw [(hold i).2.2.1, (hold j).2.2.1] at hnij
    exact h.uniq i hi j hj hui huj hpij hnij
  · rw [(hold i).1] at hui
    rw [(hold i).2.2.2.1] at hdi
    rcases (hold i).2.2.2.2 with hl | hl
    · rw [hl]
      exact h.data i hi hui hdi
    · rw [hl]
      exact hlen
  · rw [(hold i).1] at hui
    rw [(hold j).1]
    exact h.packed i hi j hj hui

/-- A change of the mount state, the volume or the partitions is none of the table. -/
theorem FsInv.frame {s' : FS} (hn : s'.nodes = s.nodes) (hc : s'.cwd = s.cwd) : FsInv s' := by
  have hdir : ∀ {i : Nat}, IsDir s i → IsDir s' i := fun hi =>
    ⟨hi.lt, by rw [hn]; exact hi.used, by rw [hn]; exact hi.dir⟩
  refine ⟨hdir h.root, by rw [hn]; exact h.rootParent, ?_, ?_, ?_, ?_, ?_, ?_⟩
  · intro i hi h0 hu
    rw [hn] at hu ⊢
    obtain ⟨p, hpe, hpi, hpd⟩ := h.parent i hi h0 hu
    exact ⟨p, hpe, hpi, hdir hpd⟩
  · rw [hn]
    exact h.name
  · rw [hn]
    exact h.uniq
  · rw [hn]
    exact h.data
  · rw [hc]
    exact hdir h.cwd
  · rw [hn]
    exact h.packed

/-- The current directory moves to a directory. -/
theorem FsInv.goto {d : Nat} (hd : IsDir s d) : FsInv { s with cwd := d } :=
  ⟨⟨h.root.lt, h.root.used, h.root.dir⟩, h.rootParent,
    fun i hi h0 hu =>
      have ⟨p, hpe, hpi, hpd⟩ := h.parent i hi h0 hu
      ⟨p, hpe, hpi, hpd.lt, hpd.used, hpd.dir⟩,
    h.name, h.uniq, h.data, ⟨hd.lt, hd.used, hd.dir⟩, h.packed⟩

/-! ## The calls -/

theorem fsMkdir_inv (arg : Str) : FsInv (fsMkdir arg s).2 := by
  unfold fsMkdir
  split
  · exact h
  · split
    · exact h
    · split
      · exact h
      · next pdir leaf hsp =>
        obtain ⟨hd, p, rfl⟩ := splitParent_spec h hsp
        split
        · exact h
        · next hleaf =>
          have hgood := goodName_of_leaf (Bool.eq_false_iff.mpr hleaf)
          split
          · exact h
          · next hkid =>
            split
            · exact h
            · next fr hfr =>
              refine h.insert hd hfr ?_ ?_ rfl rfl (by simp)
              · dsimp only
                rw [nameCp_nextPart]
                simpa using hkid
              · dsimp only
                rw [nameCp_nextPart]
                exact hgood

theorem fsFwrite_inv {fuel : Nat} {path buf : Str} {r : Int × FS}
    (hr : fsFwrite fuel path buf s = some r) : FsInv r.2 := by
  unfold fsFwrite at hr
  split at hr
  · split at hr
    · exact absurd hr (by simp)
    · rw [← Option.some.inj hr]
      exact h.frame rfl rfl
  · rw [← Option.some.inj hr]
    split
    · exact h
    · split
      · exact h
      · next hlen =>
        split
        · exact h
        · next pdir leaf hsp =>
          obtain ⟨hd, p, rfl⟩ := splitParent_spec h hsp
          split
          · exact h
          · next hleaf =>
            have hgood := goodName_of_leaf (Bool.eq_false_iff.mpr hleaf)
            split
            · split
              · exact h
              · exact h.store (Nat.le_of_not_lt hlen)
            · next hkid =>
              split
              · exact h
              · next k hk =>
                refine h.insert hd hk ?_ ?_ rfl rfl fun _ => Nat.le_of_not_lt hlen
                · dsimp only [Node.store]
                  rw [nameCp_nextPart]
                  exact hkid
                · dsimp only [Node.store]
                  rw [nameCp_nextPart]
                  exact hgood

theorem fsChdir_inv {fuel : Nat} {path : Str} {r : Int × FS}
    (hr : fsChdir fuel path s = some r) : FsInv r.2 := by
  unfold fsChdir at hr
  split at hr
  · split at hr
    · exact absurd hr (by simp)
    · rw [← Option.some.inj hr]
      exact h.frame rfl rfl
  · rw [← Option.some.inj hr]
    split
    · exact h.goto h.root
    · split
      · exact h
      · next dir hdir => exact h.goto (resolveDir_isDir h hdir)

theorem fsListdir_state {fuel cap : Nat} {path : Str} {r : (Int × Str) × FS}
    (hr : fsListdir fuel path cap s = some r) : FsInv r.2 := by
  unfold fsListdir at hr
  split at hr
  · split at hr
    · exact absurd hr (by simp)
    · rw [← Option.some.inj hr]
      exact h.frame rfl rfl
    · rw [← Option.some.inj hr]
      exact h.frame rfl rfl
  · dsimp only at hr
    split at hr
    · rw [← Option.some.inj hr]
      exact h
    · split at hr
      · rw [← Option.some.inj hr]
        exact h
      · rw [← Option.some.inj hr]
        exact h

theorem fsMountPart_inv (idx : Int) : FsInv (fsMountPart idx s).2 := by
  unfold fsMountPart
  split
  · exact h
  · split
    · exact h.frame rfl rfl
    · exact h.frame rfl rfl

/-- One call. -/
theorem Call.run_inv {fuel : Nat} {c : Call} {r : (Int × Str) × FS}
    (hr : c.run fuel s = some r) : FsInv r.2 := by
  cases c with
  | mkdir arg =>
    rw [← Option.some.inj hr]
    exact fsMkdir_inv h arg
  | fwrite path buf =>
    obtain ⟨r', hr', rfl⟩ := Option.map_eq_some_iff.mp hr
    exact fsFwrite_inv h hr'
  | chdir path =>
    obtain ⟨r', hr', rfl⟩ := Option.map_eq_some_iff.mp hr
    exact fsChdir_inv h hr'
  | listdir path cap => exact fsListdir_state h hr
  | getcwd cap =>
    rw [← Option.some.inj hr]
    exact h
  | freadRam path cap =>
    rw [← Option.some.inj hr]
    exact h
  | mountPart idx =>
    rw [← Option.some.inj hr]
    exact fsMountPart_inv h idx
  | unmount =>
    rw [← Option.some.inj hr]
    exact h.frame rfl rfl

end Inv

/-- `fs_init` builds the root and nothing else, whatever was there. -/
theorem fsInit_inv (s : FS) : FsInv (fsInit s) := by
  have hused : ∀ i < fsMax, ((fsInit s).nodes i).used = true → i = 0 := by
    intro i hi hu
    by_cases h0 : i = 0
    · exact h0
    · simp only [fsInit, if_neg h0, if_pos hi] at hu
      exact absurd hu (by simp)
  refine ⟨⟨by decide, rfl, rfl⟩, rfl, fun i hi h0 hu => ?_, fun i hi h0 hu => ?_,
    fun i hi j hj hui huj _ _ => ?_, fun i hi hu hd => ?_,
    ⟨show 0 < fsMax by decide, rfl, rfl⟩, fun i hi j hj hu => ?_⟩
  · exact absurd (hused i hi hu) h0
  · exact absurd (hused i hi hu) h0
  · rw [hused i hi hui, hused j hj huj]
  · rw [hused i hi hu] at hd
    exact absurd hd (by simp [fsInit])
  · obtain rfl : j = 0 := by
      have := hused i hi hu
      omega
    rfl

theorem runCalls_keeps {fuel : Nat} : ∀ {calls : List Call} {s : FS} {rs : List (Int × Str)}
    {s' : FS}, FsInv s → runCalls fuel calls s = some (rs, s') → FsInv s'
  | [], s, rs, s', h, hr => by
    simp only [runCalls, Option.some.injEq, Prod.mk.injEq] at hr
    rw [← hr.2]
    exact h
  | c :: cs, s, rs, s', h, hr => by
    unfold runCalls at hr
    split at hr
    · exact absurd hr (by simp)
    · next r s₁ hc =>
      split at hr
      · exact absurd hr (by simp)
      · next rs' s₂ hcs =>
        simp only [Option.some.injEq, Prod.mk.injEq] at hr
        rw [← hr.2]
        exact runCalls_keeps (Call.run_inv h hc) hcs

/-- **The node table is a tree in every reachable state**: whatever calls were made since
`fs_init`, with whatever paths and data, while mounted or not. -/
theorem runCalls_inv {fuel : Nat} {calls : List Call} {s s' : FS} {rs : List (Int × Str)}
    (h : runCalls fuel calls (fsInit s) = some (rs, s')) : FsInv s' :=
  runCalls_keeps (fsInit_inv s) h

theorem runCalls_inv_bare : ∃ rs s', runCalls 0 [.mkdir [97], .chdir [97], .fwrite [98] [1, 2, 3],
      .mkdir [slash, 97], .mountPart 0, .unmount, .chdir [dot, dot]] (fsInit bareFS) =
        some (rs, s') ∧
    rs.map Prod.fst = [fsOk, fsOk, fsOk, fsExists, fsBadpath, 0, fsOk] ∧ FsInv s' := by
  have hrun : (runCalls 0 [.mkdir [97], .chdir [97], .fwrite [98] [1, 2, 3],
      .mkdir [slash, 97], .mountPart 0, .unmount, .chdir [dot, dot]] (fsInit bareFS)).map
        (fun r => r.1.map Prod.fst) = some [fsOk, fsOk, fsOk, fsExists, fsBadpath, 0, fsOk] := by
    decide +kernel
  obtain ⟨⟨rs, s'⟩, hr, hres⟩ := Option.map_eq_some_iff.mp hrun
  exact ⟨rs, s', hr, hres, runCalls_inv hr⟩

end InaneOS.Fs
