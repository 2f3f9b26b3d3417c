import InaneOS.Fs.Invariant
import Mathlib.Data.List.DropRight

/-!
# What the path scanner sees

`next_part` takes at most 31 bytes and the loop of `resolve` goes on where it
stopped, so a longer component is looked up in pieces (`cut`), as if there were a
slash after every 31 bytes. `parts` are the pieces of a whole path and `walk` is
the lookup over them: `resolve_walk` says that `resolve` is the one after the other.

A walk over two lists is two walks (`walk_append`), and what a walk finds it still
finds when the table has grown (`Grown.walk`).
-/

namespace InaneOS.Fs

open InaneOS.Fat

/-! ## The pieces of a path -/

/-- A component in the pieces it is looked up in. -/
def cut (v : Str) : List Str :=
  if v = [] then [] else v.take 31 :: cut (v.drop 31)
termination_by v.length
decreasing_by
  have hpos : 0 < v.length := List.length_pos_iff.mpr ‹_›
  rw [List.length_drop]
  omega

/-- The pieces of a path. -/
def parts (path : Str) : List Str := (comps path).flatMap cut

theorem cut_nil : cut [] = [] := by rw [cut, if_pos rfl]

theorem cut_cons {v : Str} (hv : v ≠ []) : cut v = v.take 31 :: cut (v.drop 31) := by
  rw [cut, if_neg hv]

theorem cut_short {v : Str} (hv : v ≠ []) (hlen : v.length ≤ 31) : cut v = [v] := by
  rw [cut_cons hv, List.take_of_length_le hlen, List.drop_of_length_le hlen, cut_nil]

theorem cut_eq_nil {v : Str} : cut v = [] ↔ v = [] := by
  constructor
  · intro hc
    by_contra hv
    rw [cut_cons hv] at hc
    exact absurd hc (List.cons_ne_nil _ _)
  · intro he
    subst he
    exact cut_nil

theorem skipSlash_idem (p : Str) : skipSlash (skipSlash p) = skipSlash p :=
  List.dropWhile_idempotent _ p

theorem skipSlash_word {v : Str} (hv : slash ∉ v) : skipSlash v = v := by
  cases v with
  | nil => rfl
  | cons c v =>
    refine List.dropWhile_cons_of_neg fun hc => hv ?_
    rw [← eq_of_beq hc]
    exact List.mem_cons_self ..

/-- What `next_part` takes of a component. -/
theorem nextPart_take {p v r : Str} (hp : skipSlash p = v ++ r) (hv : slash ∉ v)
    (hr : r = [] ∨ ∃ r', r = slash :: r') : nextPart p = v.take 31 := by
  rw [nextPart, hp, compLen_run _ hv hr, List.take_append_of_le_length (Nat.min_le_right _ _)]
  exact List.take_eq_take_min.symm

theorem nextPart_word {v : Str} (hv : slash ∉ v) : nextPart v = v.take 31 :=
  nextPart_take (r := []) (by rw [skipSlash_word hv, List.append_nil]) hv (Or.inl rfl)

theorem parts_word {v : Str} (hv : slash ∉ v) : parts v = cut v := by
  by_cases hne : v = []
  · rw [hne, cut_nil]
    rfl
  · rw [parts, comps, Lib.pieces_word hv hne, List.flatMap_singleton]

theorem parts_append (a v : Str) : parts (a ++ slash :: v) = parts a ++ parts v := by
  rw [parts, comps, Lib.pieces_append_sep, List.flatMap_append]
  rfl

theorem parts_slash (p : Str) : parts (slash :: p) = parts p := by
  rw [parts, comps, Lib.pieces_sep]
  rfl

theorem parts_skipSlash (p : Str) : parts (skipSlash p) = parts p := by
  rw [parts, skipSlash_comps]
  rfl

theorem parts_nil {p : Str} (hp : skipSlash p = []) : parts p = [] := by
  rw [← parts_skipSlash, hp]
  rfl

theorem parts_run {v r : Str} (hv : slash ∉ v) (hr : r = [] ∨ ∃ r', r = slash :: r') :
    parts (v ++ r) = cut v ++ parts r := by
  rcases hr with rfl | ⟨r', rfl⟩
  · rw [List.append_nil, parts_word hv, parts_nil (p := []) rfl, List.append_nil]
  · rw [parts_append, parts_word hv, parts_slash]

/-- One round of the scanner. -/
theorem parts_step {p : Str} (hp : skipSlash p ≠ []) :
    nextPart p ≠ [] ∧
      parts p = nextPart p :: parts ((skipSlash p).drop (nextPart p).length) := by
  rcases skipSlash_cases p with ⟨hnil, -⟩ | ⟨v, r, hvr, hne, hv, hr, -⟩
  · exact absurd hnil hp
  · have hpart := nextPart_take hvr hv hr
    have hlen : (v.take 31).length ≤ v.length := List.length_take_le' _ _
    have hdrop : v.drop (v.take 31).length = v.drop 31 := by
      rw [List.length_take]
      rcases Nat.le_total 31 v.length with hle | hle
      · rw [Nat.min_eq_left hle]
      · rw [Nat.min_eq_right hle, List.drop_length, List.drop_of_length_le hle]
    have htail : slash ∉ v.drop 31 := fun hm => hv (List.mem_of_mem_drop hm)
    refine ⟨?_, ?_⟩
    · rw [hpart]
      simpa using hne
    · rw [hpart, ← parts_skipSlash, hvr, List.drop_append_of_le_length hlen, hdrop,
        parts_run hv hr, parts_run htail hr, cut_cons hne]
      rfl

/-! ## The lookup -/

/-- The parent step of `resolve`. -/
def up (s : FS) (cur : Nat) : Nat :=
  if (s.nodes cur).parent ≥ 0 then (s.nodes cur).parent.toNat else cur

/-- The lookup of `resolve` over the pieces of a path. -/
def walk (s : FS) : List Str → Nat → Option Nat
  | [], cur => some cur
  | c :: cs, cur =>
    if c = [dot] then walk s cs cur
    else if c = [dot, dot] then walk s cs (up s cur)
    else
      match findKid cur c s with
      | none => none
      | some j => if cs ≠ [] ∧ !(s.nodes j).isDir then none else walk s cs j

/-- Where `resolve` starts. -/
def startOf (path : Str) (s : FS) : Nat := if path.head? = some slash then 0 else s.cwd

theorem parts_eq_nil {p : Str} : parts p = [] ↔ skipSlash p = [] := by
  constructor
  · intro hn
    by_contra hp
    rw [(parts_step hp).2] at hn
    exact absurd hn (List.cons_ne_nil _ _)
  · exact parts_nil

/-- The loop of `resolve` walks over the pieces. -/
theorem resolveLoop_walk (s : FS) : ∀ (k : Nat) (path : Str) (cur : Nat), path.length ≤ k →
    resolveLoop s k path cur = walk s (parts path) cur
  | 0, path, cur, hk => by
    obtain rfl : path = [] := List.length_eq_zero_iff.mp (by omega)
    rfl
  | k + 1, path, cur, hk => by
    rw [resolveLoop]
    dsimp only
    by_cases hp : skipSlash path = []
    · rw [if_pos hp, parts_nil hp]
      rfl
    · have hpart : nextPart (skipSlash path) = nextPart path := by
        rw [nextPart, skipSlash_idem]
        rfl
      obtain ⟨hne, hstep⟩ := parts_step hp
      -- the round takes a byte at least
      have hshort : (skipSlash ((skipSlash path).drop (nextPart path).length)).length ≤ k := by
        have h1 := skipSlash_length ((skipSlash path).drop (nextPart path).length)
        have h2 := skipSlash_length path
        have h3 : 0 < (nextPart path).length := List.length_pos_iff.mpr hne
        rw [List.length_drop] at h1
        omega
      have hrest := fun c => resolveLoop_walk s k _ c hshort
      have hempty : skipSlash ((skipSlash path).drop (nextPart path).length) ≠ [] ↔
          parts ((skipSlash path).drop (nextPart path).length) ≠ [] :=
        not_congr parts_eq_nil.symm
      simp only [parts_skipSlash] at hrest
      rw [if_neg hp, hpart, hstep, walk]
      simp only [sameCondition_iff, hrest, hempty]
      rfl

/-- **`resolve` walks over the pieces of the path.** -/
theorem resolve_walk (path : Str) (s : FS) :
    resolve path s = walk s (parts path) (startOf path s) := by
  unfold resolve
  dsimp only
  split
  · next hp =>
    rcases hp with rfl | hp
    · rfl
    · obtain rfl := sameCondition_iff.mp hp
      rw [parts_word (by decide), cut_short (by decide) (by decide)]
      rfl
  · exact resolveLoop_walk s _ _ _ (Nat.le_refl _)

section Walk

variable {s : FS} (h : FsInv s)

include h

theorem startOf_isDir (path : Str) : IsDir s (startOf path s) := by
  unfold startOf
  split
  · exact h.root
  · exact h.cwd

theorem up_isDir {cur : Nat} (hlt : cur < fsMax) (hu : (s.nodes cur).used = true)
    (hd : (s.nodes cur).isDir = true) : IsDir s (up s cur) := by
  unfold up
  split
  · next hp =>
    have h0 : cur ≠ 0 := by
      intro he
      subst he
      rw [h.rootParent] at hp
      omega
    obtain ⟨p, hpe, -, hpd⟩ := h.parent cur hlt h0 hu
    rw [hpe]
    exact hpd
  · exact ⟨hlt, hu, hd⟩

/-- A node is found under its parent and its name. -/
theorem findKid_kid {i d : Nat} (hi : i < fsMax) (hu : (s.nodes i).used = true)
    (hp : (s.nodes i).parent = d) : findKid d (s.nodes i).name s = some i := by
  cases hk : findKid d (s.nodes i).name s with
  | none => exact absurd rfl (findKid_none hk hi hu hp)
  | some j =>
    obtain ⟨hj, hju, hjp, hjn⟩ := findKid_some hk
    rw [h.uniq j hj i hi hju hu (by rw [hjp, hp]) hjn]

/-- Only a directory has pieces below it. -/
theorem walk_append : ∀ {as bs : List Str} {cur : Nat}, bs ≠ [] → IsDir s cur →
    walk s (as ++ bs) cur
      = (walk s as cur).bind fun d => if (s.nodes d).isDir then walk s bs d else none
  | [], bs, cur, _, hc => by
    rw [List.nil_append, walk, Option.bind_some, hc.dir]
    rfl
  | a :: as, bs, cur, hbs, hc => by
    have hne : as ++ bs ≠ [] := by simp [hbs]
    rw [List.cons_append, walk, walk]
    split
    · exact walk_append hbs hc
    · split
      · exact walk_append hbs (up_isDir h hc.lt hc.used hc.dir)
      · cases hk : findKid cur a s with
        | none => rfl
        | some j =>
          obtain ⟨hj, hju, -, -⟩ := findKid_some hk
          dsimp only
          cases hjd : (s.nodes j).isDir with
          | true =>
            rw [if_neg (by simp), if_neg (by simp)]
            exact walk_append hbs ⟨hj, hju, hjd⟩
          | false =>
            rw [if_pos ⟨hne, by simp⟩]
            by_cases has : as = []
            · rw [if_neg (by simp [has]), has, walk, Option.bind_some, hjd]
              rfl
            · rw [if_pos ⟨has, by simp⟩]
              rfl

end Walk

/-- `s'` has the used nodes of `s`, each where it was, and perhaps others. -/
structure Grown (s s' : FS) : Prop where
  old : FsInv s
  new : FsInv s'
  used : ∀ i < fsMax, (s.nodes i).used = true → (s'.nodes i).used = true
  parent : ∀ i < fsMax, (s.nodes i).used = true → (s'.nodes i).parent = (s.nodes i).parent
  name : ∀ i < fsMax, (s.nodes i).used = true → (s'.nodes i).name = (s.nodes i).name
  dir : ∀ i < fsMax, (s.nodes i).used = true → (s'.nodes i).isDir = (s.nodes i).isDir

namespace Grown

variable {s s' : FS} (g : Grown s s')

include g

theorem isDir {i : Nat} (hi : IsDir s i) : IsDir s' i :=
  ⟨hi.lt, g.used i hi.lt hi.used, by rw [g.dir i hi.lt hi.used]; exact hi.dir⟩

theorem findKid {d k : Nat} {nm : Str} (hk : findKid d nm s = some k) :
    Fs.findKid d nm s' = some k := by
  obtain ⟨hlt, hu, hp, rfl⟩ := findKid_some hk
  rw [← g.name k hlt hu]
  exact findKid_kid g.new hlt (g.used k hlt hu) (by rw [g.parent k hlt hu, hp])

/-- What was found is found again. -/
theorem walk : ∀ {cs : List Str} {cur r : Nat}, IsDir s cur → Fs.walk s cs cur = some r →
    Fs.walk s' cs cur = some r
  | [], _, _, _, hr => hr
  | c :: cs, cur, r, hc, hr => by
    rw [Fs.walk] at hr ⊢
    split at hr
    · next hdot =>
      rw [if_pos hdot]
      exact walk hc hr
    · next hdot =>
      rw [if_neg hdot]
      split at hr
      · next hdots =>
        rw [if_pos hdots, up, g.parent cur hc.lt hc.used]
        exact walk (up_isDir g.old hc.lt hc.used hc.dir) hr
      · next hdots =>
        rw [if_neg hdots]
        split at hr
        · exact absurd hr (by simp)
        · next j hj =>
          obtain ⟨hlt, hu, -, -⟩ := findKid_some hj
          rw [g.findKid hj]
          dsimp only
          rw [g.dir j hlt hu]
          split at hr
          · exact absurd hr (by simp)
          · next hgo =>
            rw [if_neg hgo]
            cases hjd : (s.nodes j).isDir with
            | true => exact walk ⟨hlt, hu, hjd⟩ hr
            | false =>
              -- a file ends the walk
              obtain rfl : cs = [] := by
                by_contra hcs
                exact hgo ⟨hcs, by simp [hjd]⟩
              exact hr

end Grown

end InaneOS.Fs
