import InaneOS.Fat.Scan
import InaneOS.Fat.Paths
import Mathlib.Data.List.Perm.Subperm

/-!
# Finding an entry: `walk` and `lookup`

On a sound tree a directory scan finds exactly the child it looks for: names are
unique, so the first match is the only one, and terminators are clean, so none
hides it. `walk` therefore computes the relation `Steps`, one child per
component (`walk_spec`), and `lookup` the child with the given eleven bytes
(`lookup_spec`). Neither changes anything but the sector buffer, and both end
when the fuel exceeds the number of table entries, because a chain repeats no
cluster.
-/

namespace InaneOS.Fat

open InaneOS.Lib

variable {g : Geo} {d : Disk}

/-- A chain is shorter than the table. -/
theorem ClusChain.length_lt (hg : g.Ok) {c : Nat} {cs : List Nat} (h : ClusChain g d c cs) :
    cs.length < g.fatSz * 128 := by
  have hsub : cs ⊆ List.range' 2 (g.fatSz * 128 - 2) := fun x hx => by
    have hr := h.2 x hx
    rw [List.mem_range'_1]
    exact ⟨hr.1, by have := hr.1; have := hr.2; omega⟩
  have hlen := (List.subperm_of_subset h.1.nodup hsub).length_le
  have hpos := hg.fatSz_pos
  rw [List.length_range'] at hlen
  omega

/-! ## Searching a directory -/

/-- The loop body stops at a terminator with nothing, at an entry that satisfies
`Q` with `F` of it, and nowhere else. -/
structure Picks {β : Type} (d : Disk) (step : Unit → Slot → Except (Option β) Unit)
    (Q : Slot → Prop) (F : Slot → β) : Prop where
  zero : ∀ sl, ent d sl 0 = 0 → step () sl = .error none
  hit : ∀ sl, ent d sl 0 ≠ 0 → Q sl → step () sl = .error (some (F sl))
  miss : ∀ sl, ent d sl 0 ≠ 0 → ¬ Q sl → step () sl = .ok ()

section Picks

variable {β : Type} {step : Unit → Slot → Except (Option β) Unit} {Q : Slot → Prop} {F : Slot → β}
  {l : List Slot}

/-- The only match is found. -/
theorem Picks.found (hp : Picks d step Q F)
    (hcl : l.Pairwise fun a b => ent d a 0 = 0 → ent d b 0 = 0) {sl : Slot} (hmem : sl ∈ l)
    (hnz : ent d sl 0 ≠ 0) (hq : Q sl) (huniq : ∀ a ∈ l, ent d a 0 ≠ 0 → Q a → a = sl) :
    l.foldlM step () = .error (some (F sl)) := by
  rcases foldlM_first step l with ⟨-, hall⟩ | ⟨l₁, x, l₂, r, rfl, hbef, hx, hres⟩
  · exact absurd (hall sl hmem) (by rw [hp.hit sl hnz hq]; simp)
  · -- the scan cannot stop before `sl`, and `sl` cannot lie before the stop
    have hnot : sl ∉ l₁ := fun h => absurd (hbef sl h) (by rw [hp.hit sl hnz hq]; simp)
    have hx0 : ent d x 0 ≠ 0 := by
      intro h0
      rcases List.mem_append.mp hmem with h | h
      · exact hnot h
      · rcases List.mem_cons.mp h with rfl | h
        · exact hnz h0
        · rw [List.pairwise_append, List.pairwise_cons] at hcl
          exact hnz (hcl.2.1.1 sl h h0)
    by_cases hqx : Q x
    · rw [huniq x (by simp) hx0 hqx] at hx
      rw [hres, ← hx, hp.hit sl hnz hq]
    · rw [hp.miss x hx0 hqx] at hx
      exact absurd hx (by simp)

/-- Without a match nothing is found. -/
theorem Picks.missed (hp : Picks d step Q F) (hno : ∀ a ∈ l, ent d a 0 ≠ 0 → ¬ Q a) :
    l.foldlM step () = .ok () ∨ l.foldlM step () = .error none := by
  rcases foldlM_first step l with ⟨hok, -⟩ | ⟨l₁, x, l₂, r, rfl, -, hx, hres⟩
  · exact Or.inl hok
  · right
    by_cases h0 : ent d x 0 = 0
    · rw [hp.zero x h0] at hx
      rw [hres, ← hx]
    · rw [hp.miss x h0 (hno x (by simp) h0)] at hx
      exact absurd hx (by simp)

end Picks

/-- Scanning a directory of a sound tree. -/
theorem Tree.scan {α σ : Type} {f : Vol} (ht : Tree f.toGeo f.disk) (fail : α)
    (body : σ → Nat → Nat → Sector → Except α σ) {r : Option Slot} (hr : Ref f.toGeo f.disk r)
    (hd : isDir f.disk r = true) {cs : List Nat}
    (hcs : ClusChain f.toGeo f.disk (first f.toGeo f.disk r) cs) {fuel : Nat}
    (hfuel : f.fatSz * 128 ≤ fuel) (prev : Nat) (a : σ) :
    ∃ res f', scanDir fail body fuel (first f.toGeo f.disk r) prev a f
        = some (scanEnd prev cs res, f') ∧ Scanned body f (slots f.toGeo cs) a res f' :=
  scanDir_spec fail body cs fuel _ prev a f ht.geo ht.fatsOn hcs
    (Nat.lt_of_lt_of_le (hcs.length_lt ht.geo) hfuel)
    fun l hl => (ht.onDisk r cs hr hd hcs l hl).1

/-! ## Names -/

/-- `sl` is the child of `r` shown as `nm`. -/
def Named (g : Geo) (d : Disk) (r : Option Slot) (nm : Str) (sl : Slot) : Prop :=
  Child g d r sl ∧ entryName (ent d sl) = some nm

theorem raw11_of_parts {e e' : Nat → UInt8} {b x : Str} (h : raw11 e = pad 8 b ++ pad 3 x)
    (h' : raw11 e' = pad 8 b ++ pad 3 x) : raw11 e = raw11 e' := h.trans h'.symm

/-- Two valid entries shown alike have the same name bytes. -/
theorem raw11_of_shown {e e' : Nat → UInt8} {nm : Str} (hv : ValidName e) (hv' : ValidName e')
    (h : entryName e = some nm) (h' : entryName e' = some nm) : raw11 e = raw11 e' := by
  obtain ⟨b, x, hp, hr⟩ := hv
  obtain ⟨b', x', hp', hr'⟩ := hv'
  rw [entryName_valid (live_of_entryName h) hp hr, Option.some.injEq] at h
  rw [entryName_valid (live_of_entryName h') hp' hr', Option.some.injEq] at h'
  obtain ⟨rfl, rfl⟩ := render_inj hp hp' (h.trans h'.symm)
  exact raw11_of_parts hr hr'

theorem Named.unique (ht : Tree g d) {r : Option Slot} {nm : Str} {a b : Slot} (hr : Ref g d r)
    (ha : Named g d r nm a) (hb : Named g d r nm b) : a = b :=
  ht.uniq r a b hr ha.1 hb.1 (raw11_of_shown (ht.valid a (Ref.entry hr ha.1))
    (ht.valid b (Ref.entry hr hb.1)) ha.2 hb.2)

/-- What `walk` reports about a reference; a directory leaves `*size` alone. -/
def hitOf (g : Geo) (d : Disk) (size : Nat) : Option Slot → Hit
  | none => ⟨g.rootClus, true, size⟩
  | some sl => ⟨entClus (ent d sl), entIsDir (ent d sl),
      if entIsDir (ent d sl) then size else entSize (ent d sl)⟩

theorem hitOf_clus (size : Nat) (r : Option Slot) : (hitOf g d size r).clus = first g d r := by
  cases r <;> rfl

theorem hitOf_isdir (size : Nat) (r : Option Slot) : (hitOf g d size r).isdir = isDir d r := by
  cases r <;> rfl

theorem hitOf_size {size : Nat} {r : Option Slot} (h : isDir d r = true) :
    (hitOf g d size r).size = size := by
  cases r with
  | none => rfl
  | some sl => exact if_pos h

theorem walkBody_picks (comp p : Str) (size : Nat) (hp : goesOn p = false) :
    Picks d (atSlot (walkBody comp p size) d)
      (fun sl => entryName (ent d sl) = some (comp.map upper))
      (fun sl => hitOf g d size (some sl)) := by
  refine ⟨fun sl h0 => ?_, fun sl hnz hq => ?_, fun sl hnz hq => ?_⟩
  · have h0' : entryAt (d.data sl.1) sl.2 0 = 0 := h0
    simp [atSlot, walkBody, h0']
  · have hnz' : entryAt (d.data sl.1) sl.2 0 ≠ 0 := hnz
    have hq' : entryName (entryAt (d.data sl.1) sl.2) = some (comp.map upper) := hq
    have hm : nameMatch (comp.map upper) comp = true := nameMatch_iff.mpr rfl
    simp only [atSlot, walkBody, if_neg hnz', hq', hm, hp, hitOf, ent]
    by_cases hdir : entIsDir (entryAt (d.data sl.1) sl.2) = true
    · simp [hdir]
    · simp [Bool.eq_false_iff.mpr hdir]
  · have hnz' : entryAt (d.data sl.1) sl.2 0 ≠ 0 := hnz
    simp only [atSlot, walkBody, if_neg hnz']
    cases hn : entryName (entryAt (d.data sl.1) sl.2) with
    | none => rfl
    | some nm =>
      have hm : nameMatch nm comp = false := by
        rw [Bool.eq_false_iff]
        intro h
        rw [nameMatch_iff.mp h] at hn
        exact hq hn
      simp [hm]

/-- The body of `walk` over a directory stops at the child of that name, if any. -/
theorem walkFold_spec (ht : Tree g d) {r : Option Slot} (hr : Ref g d r) (hd : isDir d r = true)
    {cs : List Nat}
    (hcs : ClusChain g d (first g d r) cs) (comp p : Str) (size : Nat) (hp : goesOn p = false) :
    (∀ sl, Named g d r (comp.map upper) sl →
      (slots g cs).foldlM (atSlot (walkBody comp p size) d) () =
        .error (some (hitOf g d size (some sl)))) ∧
    ((∀ sl, ¬ Named g d r (comp.map upper) sl) →
      (slots g cs).foldlM (atSlot (walkBody comp p size) d) () = .ok () ∨
        (slots g cs).foldlM (atSlot (walkBody comp p size) d) () = .error none) := by
  have hpk := walkBody_picks (g := g) (d := d) comp p size hp
  have hchild : ∀ a ∈ slots g cs, entryName (ent d a) = some (comp.map upper) →
      Named g d r (comp.map upper) a := fun a ha hn => ⟨⟨hd, cs, hcs, ha, ⟨_, hn⟩⟩, hn⟩
  refine ⟨fun sl hsl => ?_, fun hno => hpk.missed fun a ha _ hq => hno a (hchild a ha hq)⟩
  obtain ⟨⟨-, cs', hcs', hmem, -⟩, hn⟩ := hsl
  rw [hcs'.unique hcs] at hmem
  exact hpk.found (ht.clean r cs hr hd hcs) hmem (live_of_entryName hn).1 hn
    fun a ha _ hq => Named.unique ht hr (hchild a ha hq) (hchild sl hmem hn)

/-- One component of `walk`: the scan finds the child of that name, if any. -/
theorem walkScan_spec {f : Vol} (ht : Tree f.toGeo f.disk) {r : Option Slot}
    (hr : Ref f.toGeo f.disk r) (hd : isDir f.disk r = true) {fuel : Nat}
    (hfuel : f.fatSz * 128 ≤ fuel) (comp p : Str) (size : Nat) (hp : goesOn p = false) :
    ∃ s res, scanDir none (walkBody comp p size) fuel (first f.toGeo f.disk r) 0 () f
        = some (res, { f with sec := s }) ∧
      (∀ sl, Named f.toGeo f.disk r (comp.map upper) sl →
        res = .error (some (hitOf f.toGeo f.disk size (some sl)))) ∧
      ((∀ sl, ¬ Named f.toGeo f.disk r (comp.map upper) sl) →
        (∃ x, res = .ok x) ∨ res = .error none) := by
  obtain ⟨cs, hcs⟩ := ht.dirChain hr hd
  obtain ⟨res, f', hrun, hfold, ⟨s, rfl⟩, -⟩ := ht.scan none
    (walkBody comp p size) hr hd hcs hfuel 0 ()
  obtain ⟨hyes, hno⟩ := walkFold_spec ht hr hd hcs comp p size hp
  refine ⟨s, _, hrun, fun sl hsl => ?_, fun hnone => ?_⟩
  · rw [← hfold, hyes sl hsl]
    rfl
  · rw [← hfold]
    rcases hno hnone with h | h
    · rw [h]
      exact Or.inl ⟨_, rfl⟩
    · rw [h]
      exact Or.inr rfl

/-! ## `walk` -/

/-- Following the components `ps` from `r` leads to `r'`. -/
def Steps (g : Geo) (d : Disk) : Option Slot → List Str → Option Slot → Prop
  | r, [], r' => r = r'
  | r, p :: ps, r' => ∃ sl, Named g d r (p.map upper) sl ∧ Steps g d (some sl) ps r'

theorem Steps.ref : ∀ {ps : List Str} {r r' : Option Slot}, Ref g d r → Steps g d r ps r' →
    Ref g d r'
  | [], _, _, hr, h => h ▸ hr
  | _ :: _, _, _, hr, h => by
    obtain ⟨sl, hn, h⟩ := h
    exact Steps.ref (Ref.entry hr hn.1) h

theorem Steps.unique (ht : Tree g d) : ∀ {ps : List Str} {r a b : Option Slot}, Ref g d r →
    Steps g d r ps a → Steps g d r ps b → a = b
  | [], _, _, _, _, ha, hb => ha.symm.trans hb
  | _ :: _, _, _, _, hr, ha, hb => by
    obtain ⟨x, hx, ha⟩ := ha
    obtain ⟨y, hy, hb⟩ := hb
    have hxy := Named.unique ht hr hx hy
    subst hxy
    exact Steps.unique ht (Ref.entry hr hx.1) ha hb

theorem Steps.append : ∀ {ps qs : List Str} {r a b : Option Slot}, Steps g d r ps a →
    Steps g d a qs b → Steps g d r (ps ++ qs) b
  | [], _, _, _, _, ha, hb => by
    subst ha
    exact hb
  | _ :: _, _, _, _, _, ha, hb => by
    obtain ⟨x, hx, ha⟩ := ha
    exact ⟨x, hx, Steps.append ha hb⟩

theorem Steps.split : ∀ {ps qs : List Str} {r b : Option Slot}, Steps g d r (ps ++ qs) b →
    ∃ a, Steps g d r ps a ∧ Steps g d a qs b
  | [], _, r, _, h => ⟨r, rfl, h⟩
  | _ :: _, _, _, _, h => by
    obtain ⟨x, hx, h⟩ := h
    obtain ⟨a, ha, hb⟩ := Steps.split h
    exact ⟨a, ⟨x, hx, ha⟩, hb⟩

/-- `p` leads from `r` to `r'`: short components, and nothing behind a file. -/
structure WalksTo (g : Geo) (d : Disk) (r : Option Slot) (p : Str) (r' : Option Slot) : Prop where
  short : ∀ q ∈ comps p, q.length ≤ 12
  steps : Steps g d r (comps p) r'
  file : isDir d r' = false → p.getLast? ≠ some slash

theorem Round.getLast? {p v r : Str} (h : Round p v r) : p.getLast? = (v ++ r).getLast? := by
  obtain ⟨t, ht⟩ := List.dropWhile_suffix (· == slash) (l := p)
  rw [← ht, show p.dropWhile (· == slash) = v ++ r from h.skip,
    List.getLast?_append_of_ne_nil _ (by simp [h.ne])]

theorem getLast?_of_comps_nil {r : Str} (h : comps r = []) (hne : r ≠ []) :
    r.getLast? = some slash := by
  rw [List.getLast?_eq_some_getLast hne,
    eq_sep_of_pieces_nil h _ (List.getLast_mem hne)]

/-- The first component of a path and the rest of it. -/
theorem walksTo_cons {r₀ r' : Option Slot} {p v r : Str} (hp : Round p v r) (hlen : v.length ≤ 12) :
    WalksTo g d r₀ p r' ↔ ∃ sl, Named g d r₀ (v.map upper) sl ∧ WalksTo g d (some sl) r r' ∧
      (isDir d (some sl) = true ∨ r = []) := by
  have hlast := hp.getLast?
  have hcs : comps p = v :: comps r := hp.comps_eq
  constructor
  · intro h
    obtain ⟨hshort, hsteps, hfile⟩ := h
    rw [hcs] at hshort hsteps
    obtain ⟨sl, hn, hsteps⟩ := hsteps
    have hfile' : isDir d r' = false → r.getLast? ≠ some slash := by
      intro hd hr
      have hrne : r ≠ [] := by
        intro he
        subst he
        simp at hr
      exact hfile hd (by rw [hlast, List.getLast?_append_of_ne_nil _ hrne, hr])
    refine ⟨sl, hn, ⟨fun q hq => hshort q (List.mem_cons_of_mem _ hq), hsteps, hfile'⟩, ?_⟩
    by_contra hcon
    obtain ⟨hd, hrne⟩ := not_or.mp hcon
    -- a file has no children, so only slashes may follow it, and they may not either
    cases hcr : comps r with
    | nil =>
      rw [hcr] at hsteps
      cases hsteps
      exact hfile' (Bool.eq_false_iff.mpr hd) (getLast?_of_comps_nil hcr hrne)
    | cons q qs =>
      rw [hcr] at hsteps
      obtain ⟨_, hn', _⟩ := hsteps
      exact hd hn'.1.1
  · intro h
    obtain ⟨sl, hn, ⟨hshort, hsteps, hfile⟩, -⟩ := h
    refine ⟨?_, by rw [hcs]; exact ⟨sl, hn, hsteps⟩, fun hd hlp => ?_⟩
    · rw [hcs]
      intro q hq
      rcases List.mem_cons.mp hq with rfl | hq
      · exact hlen
      · exact hshort q hq
    · rw [hlast] at hlp
      by_cases hrne : r = []
      · rw [hrne, List.append_nil] at hlp
        exact hp.clean (List.mem_of_getLast? hlp)
      · rw [List.getLast?_append_of_ne_nil _ hrne] at hlp
        exact hfile hd hlp

/-- With the entry the first component names at hand. -/
theorem walksTo_named (ht : Tree g d) {r₀ r' : Option Slot} (hr : Ref g d r₀) {p v r : Str}
    (hp : Round p v r) (hlen : v.length ≤ 12) {sl : Slot} (hsl : Named g d r₀ (v.map upper) sl) :
    WalksTo g d r₀ p r' ↔ WalksTo g d (some sl) r r' ∧ (isDir d (some sl) = true ∨ r = []) := by
  rw [walksTo_cons hp hlen]
  constructor
  · intro h
    obtain ⟨sl', hsl', hw⟩ := h
    rwa [Named.unique ht hr hsl hsl']
  · intro hw
    exact ⟨sl, hsl, hw⟩

/-- Where nothing is left but slashes, a path leads to where it starts. -/
theorem WalksTo.stay {p : Str} {r : Option Slot} (hcs : comps p = [])
    (hd : isDir d r = true ∨ p = []) : WalksTo g d r p r := by
  refine ⟨by simp [hcs], by rw [hcs]; rfl, fun hfile => ?_⟩
  rcases hd with hd | rfl
  · exact absurd (hd.symm.trans hfile) (by simp)
  · simp

/-- `walk` goes on behind a directory, and behind a file when the path ends there. -/
theorem hit_goes {size : Nat} {sl : Slot} {rest : Str} :
    (!(hitOf g d size (some sl)).isdir ∧ rest ≠ []) ↔ ¬ (isDir d (some sl) = true ∨ rest = []) := by
  rw [hitOf_isdir, not_or, Bool.not_eq_true', Bool.not_eq_true]

/-- What `walk` reports at the end does not depend on the entries it came through. -/
theorem hit_behind {sl : Slot} {rest : Str} {r' : Option Slot} (hw : WalksTo g d (some sl) rest r')
    (hfile : isDir d (some sl) = true ∨ rest = []) (size : Nat) :
    (if comps rest = [] then hitOf g d size (some sl)
      else hitOf g d (hitOf g d size (some sl)).size r') = hitOf g d size r' := by
  have hsteps := hw.steps
  by_cases hcs : comps rest = []
  · rw [hcs] at hsteps
    have hr' : some sl = r' := hsteps
    rw [if_pos hcs, hr']
  · have hdir : isDir d (some sl) = true := hfile.resolve_right fun hnil => hcs (by rw [hnil]; rfl)
    rw [if_neg hcs, hitOf_size hdir]

/-- The component loop of `walk` computes `WalksTo`. -/
theorem walkLoop_spec {f : Vol} (ht : Tree f.toGeo f.disk) {fuel : Nat}
    (hfuel : f.fatSz * 128 ≤ fuel) : ∀ (k : Nat) (path : Str) (r : Option Slot) (h : Hit)
    (s₀ : Sector), path.length ≤ k → Ref f.toGeo f.disk r → (isDir f.disk r = true ∨ path = []) →
    h.clus = first f.toGeo f.disk r →
    ∃ s res, walkLoop fuel k path h { f with sec := s₀ } = some (res, { f with sec := s }) ∧
      (∀ r', WalksTo f.toGeo f.disk r path r' →
        res = some (if comps path = [] then h else hitOf f.toGeo f.disk h.size r')) ∧
      ((∀ r', ¬ WalksTo f.toGeo f.disk r path r') → res = none)
  | 0, path, r, h, s₀, hk, hr, hd, hh => by
    have hp : path = [] := List.length_eq_zero_iff.mp (by omega)
    subst hp
    exact ⟨s₀, some h, rfl, fun r' _ => rfl, fun hno => absurd (WalksTo.stay rfl hd) (hno r)⟩
  | k + 1, path, r, h, s₀, hk, hr, hd, hh => by
    rcases skipSlash_cases path with ⟨hnil, hcs⟩ | ⟨v, rest, hround⟩
    · exact ⟨s₀, some h, walkLoop_end hnil .., fun r' _ => by rw [if_pos hcs],
        fun hno => absurd (WalksTo.stay hcs hd) (hno r)⟩
    · have hd : isDir f.disk r = true := hd.resolve_right hround.path_ne
      have hcs : comps path ≠ [] := by
        rw [hround.comps_eq]
        exact List.cons_ne_nil _ _
      rcases Nat.lt_or_ge 12 v.length with hlong | hshort
      · refine ⟨s₀, none, hround.walk_long hlong .., fun r' hw => ?_, fun _ => rfl⟩
        exact absurd (hw.short v (by rw [hround.comps_eq]; exact List.mem_cons_self)) (by omega)
      · obtain ⟨s₁, res₁, hscan, hyes, hno⟩ := walkScan_spec (f := { f with sec := s₀ }) ht hr hd
          hfuel v rest h.size (hround.short hshort).2
        rw [hround.walk hshort, hh, hscan]
        by_cases hex : ∃ sl, Named f.toGeo f.disk r (v.map upper) sl
        · obtain ⟨sl, hsl⟩ := hex
          rw [hyes sl hsl]
          have hiff : ∀ r', WalksTo f.toGeo f.disk r path r' ↔
              WalksTo f.toGeo f.disk (some sl) rest r' ∧
                (isDir f.disk (some sl) = true ∨ rest = []) :=
            fun r' => walksTo_named ht hr hround hshort hsl
          by_cases hfile : isDir f.disk (some sl) = true ∨ rest = []
          · obtain ⟨s₂, res₂, hrun, hw₂, hn₂⟩ := walkLoop_spec ht hfuel k rest (some sl)
              (hitOf f.toGeo f.disk h.size (some sl)) s₁ (hround.rest_le hk) (Ref.entry hr hsl.1)
              hfile rfl
            refine ⟨s₂, res₂, ?_, fun r' hw => ?_, fun hnone => hn₂ fun r' hw => ?_⟩
            · rw [← hrun]
              exact if_neg fun hoff => hit_goes.mp hoff hfile
            · have hrest := ((hiff r').mp hw).1
              rw [if_neg hcs, hw₂ r' hrest, hit_behind hrest hfile]
            · exact hnone r' ((hiff r').mpr ⟨hw, hfile⟩)
          · refine ⟨s₁, none, if_pos (hit_goes.mpr hfile), fun r' hw => ?_, fun _ => rfl⟩
            exact absurd ((hiff r').mp hw).2 hfile
        · have hnone : ∀ sl, ¬ Named f.toGeo f.disk r (v.map upper) sl :=
            fun sl hsl => hex ⟨sl, hsl⟩
          refine ⟨s₁, none, ?_, fun r' hw => ?_, fun _ => rfl⟩
          · rcases hno hnone with ⟨x, rfl⟩ | rfl
            · rfl
            · rfl
          · obtain ⟨sl, hsl, -⟩ := (walksTo_cons hround hshort).mp hw
            exact absurd hsl (hnone sl)

/-- **`walk` computes `WalksTo`** from the root. Only a path of two or more
slashes and nothing else reports the caller's `isdir`. -/
theorem walk_spec {f : Vol} (ht : Tree f.toGeo f.disk) {fuel : Nat}
    (hfuel : f.fatSz * 128 ≤ fuel) (abs : Str) (isdir : Bool) (size : Nat) :
    ∃ s res, walk fuel abs isdir size f = some (res, { f with sec := s }) ∧
      (∀ r', WalksTo f.toGeo f.disk none abs r' →
        res = some (hitOf f.toGeo f.disk size r') ∨
        comps abs = [] ∧ res = some { hitOf f.toGeo f.disk size r' with isdir := isdir }) ∧
      ((∀ r', ¬ WalksTo f.toGeo f.disk none abs r') → res = none) := by
  unfold walk
  split
  next hroot =>
    have hcs : comps abs = [] := by
      rcases hroot with rfl | hroot
      · rfl
      · rw [nameSame_iff.mp hroot]
        rfl
    refine ⟨f.sec, _, rfl, fun r' hw => Or.inl ?_, fun hno => ?_⟩
    · have hst := hw.steps
      rw [hcs] at hst
      cases hst
      rfl
    · exact absurd ⟨by simp [hcs], by rw [hcs]; rfl, by simp [isDir]⟩ (hno none)
  next =>
    obtain ⟨s, res, hrun, hyes, hno⟩ := walkLoop_spec ht hfuel abs.length abs none
      ⟨f.rootClus, isdir, size⟩ f.sec (Nat.le_refl _) Ref.root (Or.inl rfl) rfl
    refine ⟨s, res, hrun, fun r' hw => ?_, hno⟩
    rw [hyes r' hw]
    by_cases hcs : comps abs = []
    · have hst := hw.steps
      rw [hcs] at hst
      cases hst
      exact Or.inr ⟨hcs, by rw [if_pos hcs]; rfl⟩
    · exact Or.inl (by rw [if_neg hcs])

/-! ## `lookup` -/

/-- `sl` is the child of `r` with the name bytes `name83`. -/
def Holding (g : Geo) (d : Disk) (r : Option Slot) (name83 : Str) (sl : Slot) : Prop :=
  Child g d r sl ∧ raw11 (ent d sl) = name83

theorem entryMatch83_iff {e : Nat → UInt8} {name83 : Str} (h : name83.length = 11) :
    entryMatch83 e name83 = true ↔ raw11 e = name83 := by
  have hget : ∀ i < 11, name83[i]? = some (name83.getD i 0) := fun i hi => by
    rw [List.getD_eq_getElem?_getD, List.getElem?_eq_getElem (by omega)]
    rfl
  simp only [entryMatch83, List.all_eq_true, List.mem_range, beq_iff_eq]
  constructor
  · intro hall
    refine List.ext_getElem? fun i => ?_
    rcases Nat.lt_or_ge i 11 with hi | hi
    · rw [hget i hi, raw11, List.getElem?_map, List.getElem?_range hi]
      exact congrArg some (hall i hi)
    · rw [List.getElem?_eq_none (by simpa [raw11] using hi), List.getElem?_eq_none (by omega)]
  · intro he i hi
    have h1 := hget i hi
    rw [← he, raw11, List.getElem?_map, List.getElem?_range hi, Option.map_some,
      Option.some.injEq] at h1
    rw [h1, ← he]
    rfl

theorem lookupBody_picks {name83 : Str} (hlen : name83.length = 11) :
    Picks d (atSlot (lookupBody name83) d)
      (fun sl => Live (ent d sl) ∧ raw11 (ent d sl) = name83)
      (fun sl => ⟨sl.1, sl.2, entIsDir (ent d sl), entClus (ent d sl), entSize (ent d sl)⟩) := by
  refine ⟨fun sl h0 => ?_, fun sl hnz hq => ?_, fun sl hnz hq => ?_⟩
  · have h0' : entryAt (d.data sl.1) sl.2 0 = 0 := h0
    simp [atSlot, lookupBody, h0']
  · obtain ⟨⟨-, h1, h2, h3⟩, hraw⟩ := hq
    have hskip : ¬ (ent d sl 0 = 0xE5 ∨ ent d sl 11 &&& attrLfn = attrLfn ∨
        ent d sl 11 &&& attrVol ≠ 0) := by
      simp only [h1, h2, h3, ne_eq, not_true_eq_false, or_self, not_false_eq_true]
    have hm : entryMatch83 (ent d sl) name83 = true := (entryMatch83_iff hlen).mpr hraw
    show (if ent d sl 0 = 0x00 then _ else _) = _
    rw [if_neg hnz]
    show (if ent d sl 0 = 0xE5 ∨ ent d sl 11 &&& attrLfn = attrLfn ∨
        ent d sl 11 &&& attrVol ≠ 0 then _ else _) = _
    rw [if_neg hskip]
    show (if !entryMatch83 (ent d sl) name83 then _ else _) = _
    rw [hm]
    rfl
  · show (if ent d sl 0 = 0x00 then _ else _) = _
    rw [if_neg hnz]
    show (if ent d sl 0 = 0xE5 ∨ ent d sl 11 &&& attrLfn = attrLfn ∨
        ent d sl 11 &&& attrVol ≠ 0 then _ else _) = _
    split
    next => rfl
    next hskip =>
      rw [not_or, not_or] at hskip
      have hlive : Live (ent d sl) := ⟨hnz, hskip.1, hskip.2.1, not_not.mp hskip.2.2⟩
      have hm : entryMatch83 (ent d sl) name83 = false := by
        rw [Bool.eq_false_iff]
        exact fun h => hq ⟨hlive, (entryMatch83_iff hlen).mp h⟩
      show (if !entryMatch83 (ent d sl) name83 then _ else _) = _
      rw [hm]
      rfl

/-- The body of `lookup` over a directory stops at the child with these name bytes, if any. -/
theorem lookupFold_spec (ht : Tree g d) {r : Option Slot} (hr : Ref g d r) (hd : isDir d r = true)
    {cs : List Nat} (hcs : ClusChain g d (first g d r) cs) {name83 base ext : Str}
    (hp : ValidParts base ext) (hname : name83 = pad 8 base ++ pad 3 ext) :
    (∀ sl, Holding g d r name83 sl → (slots g cs).foldlM (atSlot (lookupBody name83) d) () =
      .error (some ⟨sl.1, sl.2, entIsDir (ent d sl), entClus (ent d sl), entSize (ent d sl)⟩)) ∧
    ((∀ sl, ¬ Holding g d r name83 sl) →
      (slots g cs).foldlM (atSlot (lookupBody name83) d) () = .ok () ∨
        (slots g cs).foldlM (atSlot (lookupBody name83) d) () = .error none) := by
  have hlen : name83.length = 11 := by
    rw [hname, List.length_append, pad_length hp.base_le, pad_length hp.ext_le]
  have hpk := lookupBody_picks (d := d) hlen
  -- a live entry with these bytes is shown, because the bytes are a valid name
  have hchild : ∀ a ∈ slots g cs, Live (ent d a) ∧ raw11 (ent d a) = name83 →
    Holding g d r name83 a :=
    fun a ha hq => ⟨⟨hd, cs, hcs, ha, ⟨_, entryName_valid hq.1 hp (hq.2.trans hname)⟩⟩, hq.2⟩
  refine ⟨fun sl hsl => ?_, fun hno => hpk.missed fun a ha _ hq => hno a (hchild a ha hq)⟩
  obtain ⟨⟨-, cs', hcs', hmem, nm, hn⟩, hraw⟩ := id hsl
  rw [hcs'.unique hcs] at hmem
  have hlive := live_of_entryName hn
  exact hpk.found (ht.clean r cs hr hd hcs) hmem hlive.1 ⟨hlive, hraw⟩ fun a ha _ hq =>
    ht.uniq r a sl hr (hchild a ha hq).1 hsl.1 (hq.2.trans hraw.symm)

/-- **`lookup` finds the child with the given name bytes**, if there is one. -/
theorem lookup_spec {f : Vol} (ht : Tree f.toGeo f.disk) {r : Option Slot}
    (hr : Ref f.toGeo f.disk r) (hd : isDir f.disk r = true) {fuel : Nat}
    (hfuel : f.fatSz * 128 ≤ fuel) {name83 base ext : Str} (hp : ValidParts base ext)
    (hname : name83 = pad 8 base ++ pad 3 ext) :
    ∃ s res, lookup fuel (first f.toGeo f.disk r) name83 f = some (res, { f with sec := s }) ∧
      (∀ sl, Holding f.toGeo f.disk r name83 sl → res = some ⟨sl.1, sl.2,
        entIsDir (ent f.disk sl), entClus (ent f.disk sl), entSize (ent f.disk sl)⟩) ∧
      ((∀ sl, ¬ Holding f.toGeo f.disk r name83 sl) → res = none) := by
  obtain ⟨cs, hcs⟩ := ht.dirChain hr hd
  obtain ⟨res, f', hrun, hfold, ⟨s, rfl⟩, -⟩ := ht.scan none
    (lookupBody name83) hr hd hcs hfuel 0 ()
  obtain ⟨hyes, hno⟩ := lookupFold_spec ht hr hd hcs hp hname
  unfold lookup
  rw [hrun]
  by_cases hex : ∃ sl, Holding f.toGeo f.disk r name83 sl
  · obtain ⟨sl, hsl⟩ := hex
    have hstop := hyes sl hsl
    rw [hfold] at hstop
    subst hstop
    refine ⟨s, _, rfl, fun sl' hsl' => ?_, fun hno => absurd hsl (hno sl)⟩
    rw [ht.uniq r sl sl' hr hsl.1 hsl'.1 (hsl.2.trans hsl'.2.symm)]
  · have hnone : ∀ sl, ¬ Holding f.toGeo f.disk r name83 sl := fun sl hsl => hex ⟨sl, hsl⟩
    refine ⟨s, none, ?_, fun sl hsl => absurd hsl (hnone sl), fun _ => rfl⟩
    rcases hno hnone with h | h
    · rw [hfold] at h
      subst h
      rfl
    · rw [hfold] at h
      subst h
      rfl

end InaneOS.Fat
