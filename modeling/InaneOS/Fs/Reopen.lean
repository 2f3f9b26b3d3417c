import InaneOS.Fs.Refine

/-!
# A created name and the name it is opened by

A creating call cuts the path at its last slash and stores the first 31 bytes of
what follows; `resolve` looks the same bytes up in pieces of 31. So a file whose
final component is longer than 31 bytes is created and cannot be opened by the
path it was created under, and neither can a directory, unless the rest is a
single dot. And two names that agree in their first 31 bytes are one file.

`splitParent_parts` puts both scanners on the same pieces: what leads to the parent
in `split_parent` leads there in `resolve` too, and the final component is left to
both. `walk_last` says what the lookup then makes of it.
-/

namespace InaneOS.Fs

open InaneOS.Fat

/-! ## The final component -/

/-- What follows the last slash of a path. -/
def finalPart (path : Str) : Str :=
  match lastSlash path 0 none with
  | some last => path.drop (last + 1)
  | none => path

theorem finalPart_word {v : Str} (hv : slash ∉ v) : finalPart v = v := by
  rw [finalPart, lastSlash_none hv]

theorem finalPart_append {a v : Str} (hv : slash ∉ v) : finalPart (a ++ slash :: v) = v := by
  rw [finalPart, lastSlash_append hv]
  dsimp only
  rw [Nat.zero_add, ← List.drop_drop, List.drop_left]
  rfl

theorem finalPart_slash (path : Str) : slash ∉ finalPart path := by
  rcases exists_last path with hno | ⟨a, v, rfl, hv⟩
  · rw [finalPart_word hno]
    exact hno
  · rw [finalPart_append hv]
    exact hv

/-- The parent of a path and its final component, for the one scanner and for the other. -/
theorem splitParent_parts {s : FS} (h : FsInv s) {path leaf : Str} {d : Nat}
    (hlen : path.length ≤ 127)
    (hs : splitParent path s = some (d, leaf)) :
    leaf = (finalPart path).take 31 ∧ IsDir s d ∧
      ∃ as, parts path = as ++ cut (finalPart path) ∧ walk s as (startOf path s) = some d := by
  obtain ⟨hd, -⟩ := splitParent_spec h hs
  unfold splitParent at hs
  rcases exists_last path with hno | ⟨a, v, rfl, hv⟩
  · rw [lastSlash_none hno] at hs
    simp only [Option.some.injEq, Prod.mk.injEq] at hs
    obtain ⟨rfl, rfl⟩ := hs
    rw [finalPart_word hno, nextPart_word hno, parts_word hno]
    have hstart : startOf path s = s.cwd := by
      refine if_neg fun hhead => hno ?_
      exact List.mem_of_head? hhead
    exact ⟨rfl, hd, [], rfl, by rw [hstart]; rfl⟩
  · rw [lastSlash_append hv] at hs
    rw [List.length_append, List.length_cons] at hlen
    have hmin : min (0 + a.length) 127 = a.length := by omega
    have htail : (a ++ slash :: v).drop (0 + a.length + 1) = v := by
      rw [Nat.zero_add, ← List.drop_drop, List.drop_left]
      rfl
    dsimp only at hs
    rw [hmin, List.take_left, htail, nextPart_word hv] at hs
    rw [finalPart_append hv, parts_append, parts_word hv]
    -- the parent's path starts where the whole path does
    have hparent : resolve (if a = [] then [slash] else a) s
        = walk s (parts a) (startOf (a ++ slash :: v) s) := by
      rw [resolve_walk]
      split
      · next ha => rw [ha]; rfl
      · next ha =>
        obtain ⟨c, a', rfl⟩ := List.exists_cons_of_ne_nil ha
        rfl
    rw [resolveDir, hparent] at hs
    cases hw : walk s (parts a) (startOf (a ++ slash :: v) s) with
    | none =>
      rw [hw] at hs
      exact absurd hs (by simp)
    | some r =>
      rw [hw] at hs
      dsimp only at hs
      cases hrd : (s.nodes r).isDir with
      | false =>
        rw [hrd] at hs
        exact absurd hs (by simp)
      | true =>
        rw [hrd] at hs
        simp only [Bool.not_true, Bool.false_eq_true, if_false, Option.some.injEq,
          Prod.mk.injEq] at hs
        obtain ⟨rfl, rfl⟩ := hs
        exact ⟨rfl, hd, parts a, rfl, hw⟩

theorem splitParent_leaf {s : FS} {path leaf : Str} {d : Nat}
    (hs : splitParent path s = some (d, leaf)) :
    leaf = (finalPart path).take 31 := by
  rw [← nextPart_word (finalPart_slash path)]
  unfold splitParent at hs
  cases hl : lastSlash path 0 none with
  | none =>
    rw [hl] at hs
    simp only [Option.some.injEq, Prod.mk.injEq] at hs
    rw [finalPart, hl, hs.2]
  | some last =>
    rw [hl] at hs
    dsimp only at hs
    split at hs
    · exact absurd hs (by simp)
    · simp only [Option.some.injEq, Prod.mk.injEq] at hs
      rw [finalPart, hl, hs.2]

/-! ## The lookup of the final component -/

section Last

variable {s : FS} {d k : Nat} {v : Str}

/-- In a directory without entries only a dot leads nowhere else. -/
theorem walk_empty (h : FsInv s) (hk : IsDir s k) (h0 : k ≠ 0) (hno : ∀ nm, findKid k nm s = none)
    (w : Str) :
    walk s (cut w) k = some k ↔ w = [] ∨ w = [dot] := by
  by_cases hw : w = []
  · rw [hw, cut_nil]
    simp [walk]
  · obtain ⟨p, hp, hlt, -⟩ := h.parent k hk.lt h0 hk.used
    have hup : up s k = p := by
      rw [up, hp, if_pos (by omega), Int.toNat_natCast]
    -- a piece shorter than 31 bytes is the whole of what is left
    have hwhole : ∀ x : Str, x.length < 31 → w.take 31 = x → w = x ∧ cut (w.drop 31) = [] := by
      intro x hx htake
      have hlen : w.length < 31 := by
        have := congrArg List.length htake
        rw [List.length_take] at this
        omega
      rw [List.take_of_length_le (Nat.le_of_lt hlen)] at htake
      exact ⟨htake, cut_eq_nil.mpr (List.drop_of_length_le (Nat.le_of_lt hlen))⟩
    rw [cut_cons hw, walk]
    split
    · next hdot =>
      obtain ⟨rfl, hrest⟩ := hwhole _ (by decide) hdot
      rw [hrest]
      simp [walk]
    · next hdot =>
      have hnodot : w ≠ [dot] := by
        intro he
        subst he
        exact hdot rfl
      split
      · next hdots =>
        obtain ⟨rfl, hrest⟩ := hwhole _ (by decide) hdots
        rw [hrest, walk, hup]
        simp only [Option.some.injEq]
        exact ⟨fun hpk => absurd hpk (by omega), fun hor => absurd hor (by simp)⟩
      · rw [hno]
        simp [hw, hnodot]

variable (hname : GoodName (v.take 31)) (hk : findKid d (v.take 31) s = some k)

include hname hk

theorem walk_last : walk s (cut v) d
    = if cut (v.drop 31) ≠ [] ∧ !(s.nodes k).isDir then none else walk s (cut (v.drop 31)) k := by
  have hne : v ≠ [] := by
    intro he
    subst he
    exact absurd hname.pos (by simp)
  rw [cut_cons hne, walk, if_neg hname.dot, if_neg hname.dots, hk]

/-- A file is found under its whole name only. -/
theorem walk_file (hf : (s.nodes k).isDir = false) :
    walk s (cut v) d = if v.length ≤ 31 then some k else none := by
  rw [walk_last hname hk, hf]
  by_cases hlen : v.length ≤ 31
  · rw [if_pos hlen, cut_eq_nil.mpr (List.drop_of_length_le hlen), if_neg (by simp)]
    rfl
  · have hne : v.drop 31 ≠ [] := by simpa using hlen
    rw [if_neg hlen, if_pos ⟨mt cut_eq_nil.mp hne, rfl⟩]

/-- A directory without entries is found under its whole name, or with a dot left over. -/
theorem walk_dir (h : FsInv s) (hdir : IsDir s k) (hno : ∀ nm, findKid k nm s = none) :
    walk s (cut v) d = some k ↔ v.length ≤ 31 ∨ v.drop 31 = [dot] := by
  have h0 : k ≠ 0 := by
    intro he
    subst he
    obtain ⟨-, -, hp, -⟩ := findKid_some hk
    rw [h.rootParent] at hp
    omega
  rw [walk_last hname hk, hdir.dir, if_neg (by simp), walk_empty h hdir h0 hno,
    List.drop_eq_nil_iff]

end Last

/-! ## What a creating call does -/

section Calls

variable {s : FS}

/-- The name stored is what is left of the final component. -/
theorem nameCp_leaf {path leaf : Str} {d : Nat} (hs : splitParent path s = some (d, leaf)) :
    nameCp leaf = (finalPart path).take 31 := by
  rw [splitParent_leaf hs, nameCp]
  exact List.take_of_length_le (List.length_take_le ..)

/-- A node made under a directory and a path. -/
structure Made (nd : Node) (d : Nat) (path : Str) : Prop where
  name : nd.name = (finalPart path).take 31
  parent : nd.parent = d
  used : nd.used = true

/-- `fs_mkdir` refuses and changes nothing, or takes the next free slot. -/
theorem fsMkdir_cases (arg : Str) (s : FS) :
    ((fsMkdir arg s).1 ≠ fsOk ∧ (fsMkdir arg s).2 = s) ∨
    ∃ d leaf k nd, splitParent arg s = some (d, leaf) ∧ badLeaf leaf = false ∧
      freeSlot s = some k ∧ Made nd d arg ∧ nd.isDir = true ∧
        fsMkdir arg s = (fsOk, s.setNode k nd) := by
  unfold fsMkdir
  split
  · exact Or.inl ⟨(by decide : fsRo ≠ fsOk), rfl⟩
  · split
    · exact Or.inl ⟨(by decide : fsUsage ≠ fsOk), rfl⟩
    · split
      · exact Or.inl ⟨(by decide : fsBadpath ≠ fsOk), rfl⟩
      · next d leaf hsp =>
        split
        · exact Or.inl ⟨(by decide : fsBadname ≠ fsOk), rfl⟩
        · next hbad =>
          split
          · exact Or.inl ⟨(by decide : fsExists ≠ fsOk), rfl⟩
          · split
            · exact Or.inl ⟨(by decide : fsFull ≠ fsOk), rfl⟩
            · next k hk =>
              exact Or.inr ⟨d, leaf, k, _, hsp, Bool.eq_false_iff.mpr hbad, hk,
                ⟨nameCp_leaf hsp, rfl, rfl⟩, rfl, rfl⟩

/-- `fs_fwrite` refuses and changes nothing, or writes a file that is there, or takes the
next free slot. -/
theorem fsFwrite_cases (hm : s.mounted = false) {fuel : Nat} {path buf : Str} {r : Int × FS}
    (hr : fsFwrite fuel path buf s = some r) :
    (r.1 ≠ fsOk ∧ r.2 = s) ∨
    ∃ d leaf k nd, splitParent path s = some (d, leaf) ∧ badLeaf leaf = false ∧
      (findKid d leaf s = some k ∧ nd = (s.nodes k).store buf ∨
        findKid d leaf s = none ∧ freeSlot s = some k) ∧
      Made nd d path ∧ nd.isDir = false ∧ itemOf nd = .file buf ∧ r = (fsOk, s.setNode k nd) := by
  unfold fsFwrite at hr
  rw [if_neg (by simp [hm])] at hr
  have hr := Option.some.inj hr
  split at hr
  · obtain rfl := hr
    exact Or.inl ⟨(by decide : fsBadpath ≠ fsOk), rfl⟩
  · split at hr
    · obtain rfl := hr
      exact Or.inl ⟨(by decide : fsFull ≠ fsOk), rfl⟩
    · split at hr
      · obtain rfl := hr
        exact Or.inl ⟨(by decide : fsBadpath ≠ fsOk), rfl⟩
      · next d leaf hsp =>
        split at hr
        · obtain rfl := hr
          exact Or.inl ⟨(by decide : fsBadname ≠ fsOk), rfl⟩
        · next hbad =>
          have hleaf := Bool.eq_false_iff.mpr hbad
          split at hr
          · next k hk =>
            split at hr
            · obtain rfl := hr
              exact Or.inl ⟨(by decide : fsBadpath ≠ fsOk), rfl⟩
            · next hd =>
              obtain ⟨-, hu, hp, hn⟩ := findKid_some hk
              have hfile : (s.nodes k).isDir = false := by simpa using hd
              exact Or.inr ⟨d, leaf, k, _, hsp, hleaf, Or.inl ⟨hk, rfl⟩,
                ⟨hn.trans (splitParent_leaf hsp), hp, hu⟩, hfile, itemOf_store hfile, hr.symm⟩
          · next hk =>
            split at hr
            · obtain rfl := hr
              exact Or.inl ⟨(by decide : fsFull ≠ fsOk), rfl⟩
            · next k hf =>
              exact Or.inr ⟨d, leaf, k, _, hsp, hleaf, Or.inr ⟨hk, hf⟩,
                ⟨nameCp_leaf hsp, rfl, rfl⟩, rfl, itemOf_store rfl, hr.symm⟩

theorem grown_insert (h : FsInv s) {k : Nat} {nd : Node} (hk : freeSlot s = some k)
    (h' : FsInv (s.setNode k nd)) : Grown s (s.setNode k nd) := by
  obtain ⟨-, hfree, -⟩ := freeSlot_some hk
  have hsame : ∀ i, (s.nodes i).used = true → (s.setNode k nd).nodes i = s.nodes i := by
    intro i hi
    apply setNode_ne
    intro he
    subst he
    rw [hfree] at hi
    exact absurd hi (by simp)
  refine ⟨h, h', fun i _ hi => ?_, fun i _ hi => ?_, fun i _ hi => ?_, fun i _ hi => ?_⟩
  all_goals rw [hsame i hi]
  exact hi

/-- The directory just made has no entries. -/
theorem findKid_new (h : FsInv s) {k : Nat} {nd : Node} (hk : freeSlot s = some k)
    (h' : FsInv (s.setNode k nd)) (nm : Str) : findKid k nm (s.setNode k nd) = none := by
  cases hf : findKid k nm (s.setNode k nd) with
  | none => rfl
  | some i =>
    obtain ⟨hi, hu, hp, -⟩ := findKid_some hf
    obtain ⟨-, hfree, -⟩ := freeSlot_some hk
    have h0 : i ≠ 0 := by
      intro he
      subst he
      rw [h'.rootParent] at hp
      omega
    obtain ⟨p, hpe, hlt, -⟩ := h'.parent i hi h0 hu
    have hpk : p = k := by
      rw [hpe] at hp
      exact Int.ofNat_inj.mp hp
    -- an older node has an older parent
    rw [setNode_ne s nd (by omega : i ≠ k)] at hu
    have hku := h.packed i hi k (by omega) hu
    rw [hfree] at hku
    exact absurd hku (by simp)

theorem badLeaf_good {path leaf : Str} {d : Nat} (hs : splitParent path s = some (d, leaf))
    (hb : badLeaf leaf = false) : GoodName ((finalPart path).take 31) := by
  have hleaf := splitParent_leaf hs
  rw [hleaf, ← nextPart_word (finalPart_slash path)] at hb
  rw [← nextPart_word (finalPart_slash path)]
  exact goodName_of_leaf hb

/-- After the call `resolve` comes to the parent too, with the final component left. -/
theorem Grown.resolve {s' : FS} (g : Grown s s') (hcwd : s'.cwd = s.cwd) {path leaf : Str} {d : Nat}
    (hlen : path.length ≤ 127) (hs : splitParent path s = some (d, leaf))
    (hb : badLeaf leaf = false) :
    Fs.resolve path s' = Fs.walk s' (cut (finalPart path)) d := by
  obtain ⟨-, hd, as, hparts, hwalk⟩ := splitParent_parts g.old hlen hs
  have hne : finalPart path ≠ [] := fun hnil => by
    have hpos := (badLeaf_good hs hb).pos
    rw [hnil] at hpos
    exact absurd hpos (by decide)
  have hstart : startOf path s' = startOf path s := by
    unfold startOf
    rw [hcwd]
  have hthere := g.walk (startOf_isDir g.old path) hwalk
  rw [resolve_walk, hparts, walk_append g.new (mt cut_eq_nil.mp hne) (startOf_isDir g.new path),
    hstart, hthere, Option.bind_some, (g.isDir hd).dir, if_pos rfl]

/-- A new directory and the path it was made under. -/
theorem fsMkdir_resolve (h : FsInv s) {arg : Str} (hlen : arg.length ≤ 127)
    (hok : (fsMkdir arg s).1 = fsOk) :
    ∃ k, (s.nodes k).used = false ∧ IsDir (fsMkdir arg s).2 k ∧
      (resolve arg (fsMkdir arg s).2 = some k ↔
        (finalPart arg).length ≤ 31 ∨ (finalPart arg).drop 31 = [dot]) := by
  have hinv := fsMkdir_inv h arg
  rcases fsMkdir_cases arg s with ⟨hno, -⟩ | ⟨d, leaf, k, nd, hs, hb, hk, hmade, hdir, hr⟩
  · exact absurd hok hno
  · rw [hr] at hinv ⊢
    obtain ⟨hlt, hfree, -⟩ := freeSlot_some hk
    have hnode := setNode_same s k nd
    have hnew : IsDir (s.setNode k nd) k := ⟨hlt, by rw [hnode, hmade.used], by rw [hnode, hdir]⟩
    have hkid := findKid_kid hinv (d := d) hlt hnew.used (by rw [hnode, hmade.parent])
    rw [hnode, hmade.name] at hkid
    have g := grown_insert h hk hinv
    refine ⟨k, hfree, hnew, ?_⟩
    rw [g.resolve rfl hlen hs hb]
    exact walk_dir (badLeaf_good hs hb) hkid hinv hnew (findKid_new h hk hinv)

theorem grown_store (h : FsInv s) {k : Nat} {buf : Str}
    (h' : FsInv (s.setNode k ((s.nodes k).store buf))) :
    Grown s (s.setNode k ((s.nodes k).store buf)) := by
  refine ⟨h, h', fun i _ hi => ?_, fun i _ _ => ?_, fun i _ _ => ?_, fun i _ _ => ?_⟩
  all_goals
    by_cases hik : i = k
    · rw [hik, setNode_same]
      first | rfl | exact hik ▸ hi
    · rw [setNode_ne _ _ hik]
      try exact hi

/-- The node a write goes to: the file of that name, or the next free slot. -/
def target (path : Str) (s : FS) : Option Nat :=
  match splitParent path s with
  | none => none
  | some (d, leaf) =>
    match findKid d leaf s with
    | some k => some k
    | none => freeSlot s

/-- A written file and the path it was written under. -/
theorem fsFwrite_resolve (h : FsInv s) (hm : s.mounted = false) {fuel : Nat} {path buf : Str}
    {s' : FS}
    (hlen : path.length ≤ 127) (hr : fsFwrite fuel path buf s = some (fsOk, s')) :
    ∃ k, target path s = some k ∧ itemOf (s'.nodes k) = .file buf ∧
      (∀ i, i ≠ k → s'.nodes i = s.nodes i) ∧
      resolve path s' = if (finalPart path).length ≤ 31 then some k else none := by
  have hinv := fsFwrite_inv h hr
  rcases fsFwrite_cases hm hr with ⟨hno, -⟩ | ⟨d, leaf, k, nd, hs, hb, hwhere, hmade,
    hfile, hitem, hr'⟩
  · exact absurd rfl hno
  · obtain rfl : s' = s.setNode k nd := congrArg Prod.snd hr'
    have hnode := setNode_same s k nd
    have hplace : k < fsMax ∧ target path s = some k ∧ Grown s (s.setNode k nd) := by
      rcases hwhere with ⟨hk, rfl⟩ | ⟨hnone, hk⟩
      · obtain ⟨hlt, -⟩ := findKid_some hk
        exact ⟨hlt, by rw [target, hs]; dsimp only; rw [hk], grown_store h hinv⟩
      · obtain ⟨hlt, -⟩ := freeSlot_some hk
        exact ⟨hlt, by rw [target, hs]; dsimp only; rw [hnone]; exact hk, grown_insert h hk hinv⟩
    obtain ⟨hlt, htarget, g⟩ := hplace
    have hkid := findKid_kid hinv (d := d) hlt (by rw [hnode, hmade.used])
      (by rw [hnode, hmade.parent])
    rw [hnode, hmade.name] at hkid
    refine ⟨k, htarget, by rw [hnode, hitem], fun i hi => setNode_ne s nd hi, ?_⟩
    rw [g.resolve rfl hlen hs hb]
    exact walk_file (badLeaf_good hs hb) hkid (by rw [hnode, hfile])

/-- Reading a file gives its bytes. -/
theorem fsFreadRam_file {path bytes : Str} {k : Nat} (hr : resolve path s = some k)
    (hk : itemOf (s.nodes k) = .file bytes) (cap : Nat) :
    fsFreadRam path cap s = (((min bytes.length cap : Nat) : Int), bytes.take cap) := by
  have hd : (s.nodes k).isDir = false := by
    by_contra hd
    rw [itemOf_dir.mpr (by simpa using hd)] at hk
    exact absurd hk (by simp)
  rw [itemOf_file hd] at hk
  obtain rfl := Item.file.inj hk
  have hn : (if (s.nodes k).datalen > cap then cap else (s.nodes k).datalen)
      = min cap (s.nodes k).datalen := by
    split <;> omega
  unfold fsFreadRam
  rw [hr]
  dsimp only
  rw [hd, if_neg (by simp), hn, ← List.map_take, List.take_range, List.length_map,
    List.length_range,
    Nat.min_comm]

end Calls

/-! ## Under which name a file was created -/

/-- The path a call names. -/
def Call.path : Call → Str
  | mkdir arg => arg
  | fwrite path _ => path
  | chdir path => path
  | listdir path _ => path
  | freadRam path _ => path
  | getcwd _ => []
  | mountPart _ => []
  | unmount => []

/-- The states any calls lead to, and for every node the final component under which it
was created. -/
inductive Reached : FS → (Nat → Str) → Prop
  | init (s : FS) : Reached (fsInit s) fun _ => []
  | call {s : FS} {origin : Nat → Str} (h : Reached s origin) {fuel : Nat} {c : Call}
      {r : (Int × Str) × FS} (hr : c.run fuel s = some r) :
      Reached r.2 fun i => if (s.nodes i).used then origin i else finalPart c.path

theorem Reached.inv {s : FS} {origin : Nat → Str} (h : Reached s origin) : FsInv s := by
  induction h with
  | init s => exact fsInit_inv s
  | call _ hr ih => exact Call.run_inv ih hr

/-- What a call does to the table: nothing, or one node is written or made. -/
theorem Call.run_nodes {s : FS} {fuel : Nat} {c : Call} {r : (Int × Str) × FS}
    (hr : c.run fuel s = some r) :
    r.2.nodes = s.nodes ∨ ∃ k nd d, r.2 = s.setNode k nd ∧ Made nd d c.path ∧
      ((s.nodes k).used = true → nd.name = (s.nodes k).name) := by
  cases c with
  | mkdir arg =>
    obtain rfl := Option.some.inj hr
    rcases fsMkdir_cases arg s with ⟨-, hs⟩ | ⟨d, leaf, k, nd, -, -, hk, hmade, -, hs⟩
    · exact Or.inl (congrArg FS.nodes hs)
    · refine Or.inr ⟨k, nd, d, congrArg Prod.snd hs, hmade, fun hu => ?_⟩
      obtain ⟨-, hfree, -⟩ := freeSlot_some hk
      rw [hfree] at hu
      exact absurd hu (by simp)
  | fwrite path buf =>
    obtain ⟨r', hr', rfl⟩ := Option.map_eq_some_iff.mp hr
    by_cases hm : s.mounted = true
    · rw [fsFwrite, if_pos hm] at hr'
      split at hr'
      · exact absurd hr' (by simp)
      · rw [← Option.some.inj hr']
        exact Or.inl rfl
    · rcases fsFwrite_cases (by simpa using hm) hr' with
        ⟨-, hs⟩ | ⟨d, leaf, k, nd, -, -, hwhere, hmade, -, -, hs⟩
      · exact Or.inl (congrArg FS.nodes hs)
      · refine Or.inr ⟨k, nd, d, congrArg Prod.snd hs, hmade, fun hu => ?_⟩
        rcases hwhere with ⟨-, rfl⟩ | ⟨-, hk⟩
        · rfl
        · obtain ⟨-, hfree, -⟩ := freeSlot_some hk
          rw [hfree] at hu
          exact absurd hu (by simp)
  | chdir path =>
    obtain ⟨r', hr', rfl⟩ := Option.map_eq_some_iff.mp hr
    refine Or.inl ?_
    unfold fsChdir at hr'
    repeat' split at hr'
    all_goals first | cases hr'; rfl | cases hr'
  | listdir path cap =>
    refine Or.inl ?_
    unfold Call.run fsListdir at hr
    dsimp only at hr
    repeat' split at hr
    all_goals first | cases hr; rfl | cases hr
  | getcwd cap => exact Or.inl (by rw [← Option.some.inj hr])
  | freadRam path cap => exact Or.inl (by rw [← Option.some.inj hr])
  | mountPart idx =>
    refine Or.inl ?_
    rw [← Option.some.inj hr]
    dsimp only
    unfold fsMountPart
    repeat' split
    all_goals rfl
  | unmount => exact Or.inl (by rw [← Option.some.inj hr]; rfl)

/-- A name is the beginning of the component it was created under. -/
theorem Reached.name {s : FS} {origin : Nat → Str} (h : Reached s origin) :
    ∀ i < fsMax, i ≠ 0 → (s.nodes i).used = true → (s.nodes i).name = (origin i).take 31 := by
  induction h with
  | init s =>
    intro i hi h0 hu
    simp only [fsInit, if_neg h0, if_pos hi] at hu
    exact absurd hu (by simp)
  | @call s origin h fuel c r hr ih =>
    intro i hi h0 hu
    dsimp only
    rcases Call.run_nodes hr with hn | ⟨k, nd, d, hs, hmade, hname⟩
    · rw [hn] at hu ⊢
      rw [if_pos hu]
      exact ih i hi h0 hu
    · rw [hs] at hu ⊢
      by_cases hik : i = k
      · rw [hik, setNode_same]
        by_cases hused : (s.nodes k).used = true
        · rw [if_pos hused, hname hused]
          exact ih k (hik ▸ hi) (hik ▸ h0) hused
        · rw [if_neg hused]
          exact hmade.name
      · rw [setNode_ne s nd hik] at hu ⊢
        rw [if_pos hu]
        exact ih i hi h0 hu

/-- The files created under another final component keep what they hold. -/
def Spares (origin : Nat → Str) (path : Str) (s s' : FS) : Prop :=
  ∀ i < fsMax, (s.nodes i).used = true → (s.nodes i).isDir = false → origin i ≠ finalPart path →
    itemOf (s'.nodes i) = itemOf (s.nodes i)

/-- A file of the directory a path leads to, created under another final component that
agrees with the path's in the first 31 bytes. -/
structure Clash (s : FS) (origin : Nat → Str) (path : Str) (i : Nat) : Prop where
  lt : i < fsMax
  used : (s.nodes i).used = true
  file : (s.nodes i).isDir = false
  parent : ∃ d leaf, splitParent path s = some (d, leaf) ∧ (s.nodes i).parent = d
  agrees : (origin i).take 31 = (finalPart path).take 31
  other : origin i ≠ finalPart path

section Main

variable {s : FS} {origin : Nat → Str} (h : Reached s origin) {path : Str}

include h

/-- A clashing file is the one written. -/
theorem Clash.target {i : Nat} (hc : Clash s origin path i) : target path s = some i := by
  obtain ⟨d, leaf, hs, hp⟩ := hc.parent
  have h0 : i ≠ 0 := by
    intro he
    subst he
    have hfile := hc.file
    rw [h.inv.root.dir] at hfile
    exact absurd hfile (by simp)
  have hkid := findKid_kid h.inv hc.lt hc.used hp
  rw [h.name i hc.lt h0 hc.used, hc.agrees, ← splitParent_leaf hs] at hkid
  rw [Fs.target, hs]
  dsimp only
  rw [hkid]

/-- A file that is written and was created under another component clashes. -/
theorem clash_of_target {i : Nat} (ht : target path s = some i) (hu : (s.nodes i).used = true)
    (hf : (s.nodes i).isDir = false) (hne : origin i ≠ finalPart path) : Clash s origin path i := by
  unfold target at ht
  split at ht
  · exact absurd ht (by simp)
  · next d leaf hs =>
    split at ht
    · next k hk =>
      obtain rfl := Option.some.inj ht
      obtain ⟨hlt, -, hp, hn⟩ := findKid_some hk
      have h0 : k ≠ 0 := by
        intro he
        subst he
        rw [h.inv.rootParent] at hp
        omega
      rw [h.name k hlt h0 hu] at hn
      exact ⟨hlt, hu, hf, ⟨d, leaf, hs, hp⟩, hn.trans (splitParent_leaf hs), hne⟩
    · obtain ⟨-, hfree, -⟩ := freeSlot_some ht
      rw [hfree] at hu
      exact absurd hu (by simp)

/-- **When a created name can be opened again.** In any reachable state of the RAM file
system, `fs_mkdir` makes a directory its path leads to exactly when the final component
has at most 31 bytes, or a dot as its 32nd and last; `fs_fwrite` makes or writes a file
its path leads to, and no file created under another component, exactly when the final
component has at most 31 bytes and no such file of that directory agrees with it in the
first 31 (or it holds the same bytes already). -/
theorem create_reopens_iff (hm : s.mounted = false) (hlen : path.length ≤ 127) :
    ((fsMkdir path s).1 = fsOk → ∃ k, (s.nodes k).used = false ∧ IsDir (fsMkdir path s).2 k ∧
      (resolve path (fsMkdir path s).2 = some k ↔
        (finalPart path).length ≤ 31 ∨ (finalPart path).drop 31 = [dot])) ∧
    ∀ fuel buf, ∃ r, fsFwrite fuel path buf s = some r ∧ (r.1 ≠ fsOk → r.2 = s) ∧
      (r.1 = fsOk → ∃ k, target path s = some k ∧ itemOf (r.2.nodes k) = .file buf ∧
        ((resolve path r.2 = some k ∧
            (∀ cap, fsFreadRam path cap r.2 = (((min buf.length cap : Nat) : Int), buf.take cap)) ∧
            Spares origin path s r.2) ↔
          (finalPart path).length ≤ 31 ∧ ∀ i, Clash s origin path i →
            itemOf (s.nodes i) = .file buf)) := by
  refine ⟨fun hok => fsMkdir_resolve h.inv hlen hok, fun fuel buf => ?_⟩
  obtain ⟨r, hr⟩ : ∃ r, fsFwrite fuel path buf s = some r := by
    unfold fsFwrite
    rw [if_neg (by simp [hm])]
    exact ⟨_, rfl⟩
  refine ⟨r, hr, fun hno => ?_, fun hok => ?_⟩
  · rcases fsFwrite_cases hm hr with ⟨-, hs⟩ | ⟨_, _, _, _, -, -, -, -, -, -, hs⟩
    · exact hs
    · exact absurd (congrArg Prod.fst hs) hno
  · obtain ⟨ret, s'⟩ := r
    obtain rfl : ret = fsOk := hok
    obtain ⟨k, htarget, hitem, hrest, hres⟩ := fsFwrite_resolve h.inv hm hlen hr
    refine ⟨k, htarget, hitem, ?_⟩
    have hspares : Spares origin path s s' ↔
        ∀ i, Clash s origin path i → itemOf (s.nodes i) = .file buf := by
      constructor
      · intro hsp i hc
        obtain rfl : k = i := Option.some.inj (htarget.symm.trans (hc.target h))
        rw [← hsp k hc.lt hc.used hc.file hc.other]
        exact hitem
      · intro hno i hi hu hf hne
        by_cases hik : i = k
        · subst hik
          rw [hitem, hno i (clash_of_target h htarget hu hf hne)]
        · rw [hrest i hik]
    rw [hspares, hres]
    constructor
    · intro h
      obtain ⟨hfound, -, hno⟩ := h
      refine ⟨?_, hno⟩
      by_contra hlong
      rw [if_neg hlong] at hfound
      exact absurd hfound (by simp)
    · intro h
      obtain ⟨hshort, hno⟩ := h
      rw [if_pos hshort] at hres ⊢
      exact ⟨rfl, fsFreadRam_file hres hitem, hno⟩

end Main

/-- A file is written under `a` and read back. -/
theorem create_reopens_iff_bare : ∃ r, fsFwrite 0 [97] [1, 2] (fsInit bareFS) = some r ∧
    r.1 = fsOk ∧ ∀ cap, fsFreadRam [97] cap r.2 = (((min 2 cap : Nat) : Int), [1, 2].take cap) := by
  obtain ⟨r, hr, -, hok⟩ :=
    (@create_reopens_iff _ _ (Reached.init bareFS) [97] rfl (by decide)).2 0 [1, 2]
  have hret : r.1 = fsOk := by
    have hmap : (fsFwrite 0 [97] [1, 2] (fsInit bareFS)).map Prod.fst =
      some fsOk := by decide +kernel
    rw [hr] at hmap
    exact Option.some.inj hmap
  obtain ⟨k, -, -, hiff⟩ := hok hret
  have hno : ∀ i, Clash (fsInit bareFS) (fun _ => []) [97] i →
      itemOf ((fsInit bareFS).nodes i) = .file [1, 2] := by
    intro i hc
    -- nothing but the root is used yet
    by_cases h0 : i = 0
    · subst h0
      exact absurd hc.file (by simp [fsInit])
    · have hu := hc.used
      simp only [fsInit, if_neg h0, if_pos hc.lt] at hu
      exact absurd hu (by simp)
  exact ⟨r, hr, hret, (hiff.mpr ⟨by decide, hno⟩).2.1⟩

/-- A directory with a name of 32 bytes is not found under it, nor is a file; and of two
files whose names differ in the 32nd byte the second is the first. -/
theorem not_create_reopens :
    (fsMkdir (List.replicate 32 97) (fsInit bareFS)).1 = fsOk ∧
    resolve (List.replicate 32 97) (fsMkdir (List.replicate 32 97) (fsInit bareFS)).2 = none ∧
    (runCalls 0 [.fwrite (List.replicate 32 97) [1], .freadRam (List.replicate 32 97) 9]
      (fsInit bareFS)).map Prod.fst = some [(fsOk, []), (-1, [])] ∧
    (runCalls 0 [.fwrite (List.replicate 31 97 ++ [98]) [1],
      .fwrite (List.replicate 31 97 ++ [99]) [2],
      .freadRam (List.replicate 31 97) 9] (fsInit bareFS)).map Prod.fst
        = some [(fsOk, []), (fsOk, []), (1, [2])] := by
  decide +kernel

end InaneOS.Fs
