import InaneOS.Fs.Reopen

/-!
# `fs_getcwd` and the way back

`fs_getcwd` climbs to the root with the indices on a stack and writes the names on
the way down, each after a slash. Names are short, have no slash and are neither
`.` nor `..`, so the scanner of `resolve` cuts that text into the same names
(`parts_slashes`), and since the children of a directory differ in their names the
walk over them ends where the climb began (`walk_pathOf`).
-/

namespace InaneOS.Fs

open InaneOS.Fat

/-! ## The text -/

/-- The names with a slash before each. -/
def slashes (nms : List Str) : Str := nms.flatMap (slash :: ·)

/-- The text of the current directory. -/
def cwdText (s : FS) : Str :=
  if s.cwd = 0 then [slash] else slashes (pathOf s s.cwd)

theorem slashes_cons (nm : Str) (nms : List Str) :
    slashes (nm :: nms) = slash :: (nm ++ slashes nms) := by
  rw [slashes, List.flatMap_cons, List.cons_append]
  rfl

theorem slashes_head (nms : List Str) : slashes nms = [] ∨ ∃ r, slashes nms = slash :: r := by
  cases nms with
  | nil => exact Or.inl rfl
  | cons nm nms => exact Or.inr ⟨_, slashes_cons nm nms⟩

/-- **The scanner gives the names back.** -/
theorem parts_slashes : ∀ {nms : List Str}, (∀ nm ∈ nms, GoodName nm) → parts (slashes nms) = nms
  | [], _ => rfl
  | nm :: nms, hgood => by
    have hnm := hgood nm (by simp)
    have hne : nm ≠ [] := List.length_pos_iff.mp hnm.pos
    have ih := parts_slashes fun x hx => hgood x (List.mem_cons_of_mem _ hx)
    rw [slashes_cons, parts_slash, parts_run hnm.slash (slashes_head nms), cut_short hne hnm.le, ih]
    rfl

/-- The loop down again stores the whole text and leaves room for the NUL, or stops
inside the buffer. -/
theorem slashed_spec (cap : Nat) : ∀ (nms : List Str) (out : Str), out.length < cap →
    Tree.slashed cap nms out = (true, out ++ slashes nms) ∧ (out ++ slashes nms).length < cap ∨
    (Tree.slashed cap nms out).1 = false ∧ (Tree.slashed cap nms out).2.length ≤ cap ∧
      cap ≤ (out ++ slashes nms).length
  | [], out, hlt => by
    have hout : out ++ slashes [] = out := List.append_nil out
    rw [hout]
    exact Or.inl ⟨rfl, hlt⟩
  | nm :: nms, out, hlt => by
    have happ : out ++ slashes (nm :: nms) = (out ++ slash :: nm) ++ slashes nms := by
      rw [slashes_cons, List.append_assoc]
      rfl
    have hlen : (out ++ slash :: nm).length = out.length + nm.length + 1 := by
      rw [List.length_append, List.length_cons]
      omega
    rw [Tree.slashed, happ]
    split
    · next hfull =>
      refine Or.inr ⟨rfl, Nat.le_of_lt hlt, ?_⟩
      rw [List.length_append, hlen]
      omega
    · next hroom => exact slashed_spec cap nms (out ++ slash :: nm) (by omega)

section Climb

variable {s : FS} (h : FsInv s)

include h

/-- The names on the way to a node are names of nodes. -/
theorem mem_pathOf : ∀ {i : Nat}, i < fsMax → (s.nodes i).used = true → ∀ nm ∈ pathOf s i,
    ∃ j < fsMax, j ≠ 0 ∧ (s.nodes j).used = true ∧ nm = (s.nodes j).name := by
  intro i
  induction i using Nat.strongRecOn with
  | ind i ih =>
    intro hi hu nm hnm
    by_cases h0 : i = 0
    · rw [h0, pathOf_zero] at hnm
      exact absurd hnm List.not_mem_nil
    · obtain ⟨p, -, hlt, hd, hpath⟩ := pathOf_split h hi hu h0
      rw [hpath] at hnm
      rcases List.mem_append.mp hnm with hup | hlast
      · exact ih p hlt hd.lt hd.used nm hup
      · exact ⟨i, hi, h0, hu, List.mem_singleton.mp hlast⟩

theorem pathOf_good {i : Nat} (hi : i < fsMax) (hu : (s.nodes i).used = true) :
    ∀ nm ∈ pathOf s i, GoodName nm := by
  intro nm hnm
  obtain ⟨j, hj, h0, hju, rfl⟩ := mem_pathOf h hi hu nm hnm
  exact h.name j hj h0 hju

/-- **A node's path leads to it.** -/
theorem walk_pathOf : ∀ {i : Nat}, i < fsMax → (s.nodes i).used = true →
    walk s (pathOf s i) 0 = some i := by
  intro i
  induction i using Nat.strongRecOn with
  | ind i ih =>
    intro hi hu
    by_cases h0 : i = 0
    · rw [h0, pathOf_zero]
      rfl
    · obtain ⟨p, hp, hlt, hd, hpath⟩ := pathOf_split h hi hu h0
      have hgood := h.name i hi h0 hu
      rw [hpath, walk_append h (List.cons_ne_nil _ _) h.root, ih p hlt hd.lt hd.used,
        Option.bind_some, hd.dir, if_pos rfl, walk, if_neg hgood.dot, if_neg hgood.dots,
        findKid_kid h hi hu hp]
      rfl

/-- The text of the current directory leads to it. -/
theorem resolve_cwdText : resolve (cwdText s) s = some s.cwd := by
  unfold cwdText
  split
  · next h0 =>
    rw [h0]
    rfl
  · next h0 =>
    have hne : pathOf s s.cwd ≠ [] := mt (pathOf_eq_nil h h.cwd.lt h.cwd.used).mp h0
    obtain ⟨nm, nms, hpath⟩ := List.exists_cons_of_ne_nil hne
    have hstart : startOf (slashes (pathOf s s.cwd)) s = 0 := by
      rw [hpath, slashes_cons]
      exact if_pos rfl
    rw [resolve_walk, hstart, parts_slashes (pathOf_good h h.cwd.lt h.cwd.used)]
    exact walk_pathOf h h.cwd.lt h.cwd.used

theorem cwdText_head : (cwdText s).head? = some slash := by
  unfold cwdText
  split
  · rfl
  · next h0 =>
    have hne : pathOf s s.cwd ≠ [] := mt (pathOf_eq_nil h h.cwd.lt h.cwd.used).mp h0
    obtain ⟨nm, nms, hpath⟩ := List.exists_cons_of_ne_nil hne
    rw [hpath, slashes_cons]
    rfl

/-- The result is the text with its NUL where both fit, and an error otherwise. -/
theorem fsGetcwd_spec (hm : s.mounted = false) (cap : Nat) :
    fsGetcwd cap s = (((cwdText s).length : Int), cwdText s ++ [0]) ∧ 2 ≤ cap ∧
      (cwdText s).length + 1 ≤ cap ∨
    (fsGetcwd cap s).1 = fsBadpath ∧ (fsGetcwd cap s).2.length ≤ cap ∧
      (cap < 2 ∨ cap < (cwdText s).length + 1) := by
  unfold fsGetcwd cwdText
  rw [if_neg (by simp [hm])]
  by_cases hcap : cap < 2
  · rw [if_pos hcap]
    exact Or.inr ⟨rfl, Nat.zero_le _, Or.inl hcap⟩
  · rw [if_neg hcap]
    by_cases h0 : s.cwd = 0
    · rw [if_pos h0, if_pos h0]
      exact Or.inl ⟨rfl, Nat.le_of_not_lt hcap, Nat.le_of_not_lt hcap⟩
    · rw [if_neg h0, if_neg h0, cwdEmit_slashed,
        cwdStack_names h _ _ _ (Nat.le_of_lt h.cwd.lt) h.cwd.lt h.cwd.used, List.map_nil,
          List.append_nil]
      rcases slashed_spec cap (pathOf s s.cwd) []
        (Nat.lt_of_lt_of_le Nat.two_pos (Nat.le_of_not_lt hcap)) with
        ⟨hall, hlt⟩ | ⟨hno, hle, hge⟩
      · rw [List.nil_append] at hall hlt
        rw [hall]
        exact Or.inl ⟨rfl, Nat.le_of_not_lt hcap, hlt⟩
      · rw [List.nil_append] at hge
        obtain ⟨out, hout⟩ : ∃ out, Tree.slashed cap (pathOf s s.cwd) [] = (false, out) :=
          ⟨_, Prod.ext hno rfl⟩
        rw [hout] at hle ⊢
        exact Or.inr ⟨rfl, hle, Or.inr (Nat.lt_succ_of_le hge)⟩

end Climb

/-! ## Names without a NUL -/

/-- No name has a NUL in it. -/
def Printable (s : FS) : Prop :=
  ∀ i < fsMax, i ≠ 0 → (s.nodes i).used = true → (0 : UInt8) ∉ (s.nodes i).name

theorem finalPart_subset {path : Str} {b : UInt8} (hb : b ∈ finalPart path) : b ∈ path := by
  unfold finalPart at hb
  split at hb
  · exact List.mem_of_mem_drop hb
  · exact hb

/-- A C string has no NUL in it, and so no name made from one. -/
theorem Call.run_printable {s : FS} {fuel : Nat} {c : Call} {r : (Int × Str) × FS}
    (hp : Printable s)
    (hc : (0 : UInt8) ∉ c.path) (hr : c.run fuel s = some r) : Printable r.2 := by
  intro i hi h0 hu
  rcases Call.run_nodes hr with hn | ⟨k, nd, d, hs, hmade, -⟩
  · rw [hn] at hu ⊢
    exact hp i hi h0 hu
  · rw [hs] at hu ⊢
    by_cases hik : i = k
    · rw [hik, setNode_same, hmade.name]
      exact fun hmem => hc (finalPart_subset (List.mem_of_mem_take hmem))
    · rw [setNode_ne s nd hik] at hu ⊢
      exact hp i hi h0 hu

theorem runCalls_printable {fuel : Nat} : ∀ {calls : List Call} {s s' : FS} {rs : List (Int × Str)},
    Printable s → (∀ c ∈ calls, (0 : UInt8) ∉ c.path) → runCalls fuel calls s = some (rs, s') →
    Printable s'
  | [], s, s', rs, hp, _, hr => by
    simp only [runCalls, Option.some.injEq, Prod.mk.injEq] at hr
    rw [← hr.2]
    exact hp
  | c :: cs, s, s', rs, hp, hc, hr => by
    unfold runCalls at hr
    split at hr
    · exact absurd hr (by simp)
    · next r s₁ hrun =>
      split at hr
      · exact absurd hr (by simp)
      · next rs' s₂ hrest =>
        simp only [Option.some.injEq, Prod.mk.injEq] at hr
        rw [← hr.2]
        have hp₁ := Call.run_printable hp (hc c (by simp)) hrun
        exact runCalls_printable hp₁ (fun x hx => hc x (List.mem_cons_of_mem _ hx)) hrest

theorem fsInit_printable (s : FS) : Printable (fsInit s) := by
  intro i hi h0 hu
  simp only [fsInit, if_neg h0, if_pos hi] at hu
  exact absurd hu (by simp)

theorem cwdText_printable {s : FS} (h : FsInv s) (hp : Printable s) : (0 : UInt8) ∉ cwdText s := by
  unfold cwdText
  split
  · decide
  · intro hmem
    obtain ⟨nm, hnm, h0⟩ := List.mem_flatMap.mp hmem
    obtain ⟨j, hj, hj0, hju, rfl⟩ := mem_pathOf h h.cwd.lt h.cwd.used nm hnm
    rcases List.mem_cons.mp h0 with hslash | hname
    · exact absurd hslash (by decide)
    · exact hp j hj hj0 hju hname

/-! ## There and back -/

/-- **`fs_getcwd` gives the way back.** In every state of the RAM file system that calls
with any paths lead to, and for every room: the call stores nothing behind the room, it
fails exactly when the text with its NUL does not fit or there are not two bytes, and
otherwise returns the length of a NUL-terminated absolute path that `resolve` follows to
the current directory, so that changing to it changes nothing. -/
theorem fsGetcwd_back {fuel : Nat} {calls : List Call} {s₀ s : FS} {rs : List (Int × Str)}
    (hrun : runCalls fuel calls (fsInit s₀) = some (rs, s)) (hm : s.mounted = false) (cap : Nat) :
    (fsGetcwd cap s).2.length ≤ cap ∧
    ((fsGetcwd cap s).1 < 0 ↔ cap < 2 ∨ cap < (cwdText s).length + 1) ∧
    (¬ (cap < 2 ∨ cap < (cwdText s).length + 1) →
      fsGetcwd cap s = (((cwdText s).length : Int), cwdText s ++ [0])) ∧
    (cwdText s).head? = some slash ∧
    ((∀ c ∈ calls, (0 : UInt8) ∉ c.path) → (0 : UInt8) ∉ cwdText s) ∧
    resolve (cwdText s) s = some s.cwd ∧ fsChdir fuel (cwdText s) s = some (fsOk, s) := by
  have h := runCalls_keeps (fsInit_inv s₀) hrun
  have hback := resolve_cwdText h
  have hhead := cwdText_head h
  have hprint := fun hc => cwdText_printable h (runCalls_printable (fsInit_printable s₀) hc hrun)
  have hchdir : fsChdir fuel (cwdText s) s = some (fsOk, s) := by
    have hne : cwdText s ≠ [] := by
      intro hnil
      rw [hnil] at hhead
      exact absurd hhead (by simp)
    have hdir : resolveDir (cwdText s) s = some s.cwd := by
      rw [resolveDir, hback]
      dsimp only
      rw [h.cwd.dir]
      rfl
    unfold fsChdir
    rw [if_neg (by simp [hm]), if_neg hne, hdir]
  rcases fsGetcwd_spec h hm cap with ⟨hall, h2, hfits⟩ | ⟨hret, hle, hno⟩
  · have hfits' : ¬ (cap < 2 ∨ cap < (cwdText s).length + 1) := by omega
    refine ⟨?_, ?_, fun _ => hall, hhead, hprint, hback, hchdir⟩
    · rw [hall, List.length_append]
      exact hfits
    · rw [hall]
      exact ⟨fun hneg => absurd hneg (by dsimp only; omega), fun hor => absurd hor hfits'⟩
  · refine ⟨hle, ?_, fun hyes => absurd hno hyes, hhead, hprint, hback, hchdir⟩
    rw [hret]
    exact ⟨fun _ => hno, fun _ => by decide⟩

/-- Two directories down; the path of five bytes needs six. -/
theorem fsGetcwd_back_bare :
    ∃ s rs, runCalls 0 [.mkdir [97], .chdir [97], .mkdir [98, 99], .chdir [98, 99]]
      (fsInit bareFS) = some (rs, s) ∧ cwdText s = [slash, 97, slash, 98, 99] ∧
    (fsGetcwd 5 s).1 < 0 ∧ fsGetcwd 6 s = (5, [slash, 97, slash, 98, 99, 0]) ∧
    fsChdir 0 [slash, 97, slash, 98, 99] s = some (fsOk, s) := by
  have hsome : (runCalls 0 [.mkdir [97], .chdir [97], .mkdir [98, 99], .chdir [98, 99]]
      (fsInit bareFS)).map (fun r => (cwdText r.2, r.2.mounted)) =
      some ([slash, 97, slash, 98, 99], false) := by
    decide +kernel
  obtain ⟨⟨rs, s⟩, hrun, hs⟩ := Option.map_eq_some_iff.mp hsome
  obtain ⟨htext, hm⟩ := Prod.mk.inj hs
  obtain ⟨-, hfail, -⟩ := fsGetcwd_back hrun hm 5
  obtain ⟨-, -, hall, -, -, -, hchdir⟩ := fsGetcwd_back hrun hm 6
  dsimp only at htext
  rw [htext] at hfail hall hchdir
  exact ⟨s, rs, hrun, htext, hfail.mpr (by decide), hall (by decide), hchdir⟩

end InaneOS.Fs
