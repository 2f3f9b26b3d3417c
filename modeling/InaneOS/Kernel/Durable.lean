import InaneOS.Kernel.SysFat

/-!
# What was saved stays

A program writes a file and is told that it worked. From then on every program that asks
for it gets what was written, however it spells the path and from whatever directory, for
as long as nobody writes a file of that name. `saved_stays` says so about the running
system: other programs come and go in between, write other files, change the current
directory and press keys.
-/

namespace InaneOS.Kernel

open InaneOS.Lib
open InaneOS.Fat (Str Sound Kind capitals shownName comps abspath holding slash)
open InaneOS.Fs

/-! ## The name of a file -/

/-- The names under which a file written to `abs` is found. A dot at the end is not stored. -/
def storedAs (abs : Str) : List Str :=
  match (comps abs).getLast? with
  | none => []
  | some leaf => capitals ((comps abs).dropLast ++ [shownName leaf])

theorem capitals_capitals (p : List Str) : capitals (capitals p) = capitals p := by
  unfold capitals
  rw [List.map_map]
  refine List.map_congr_left fun q _ => ?_
  show (q.map Fat.upper).map Fat.upper = q.map Fat.upper
  rw [List.map_map]
  exact List.map_congr_left fun c _ => Fat.upper_upper c

theorem storedAs_capitals (abs : Str) : capitals (storedAs abs) = storedAs abs := by
  unfold storedAs
  split
  · rfl
  · exact capitals_capitals _

theorem storedAs_leaf {par leaf : Str} (hpar : par.getLast? = some slash) (hv : slash ∉ leaf)
    (hne : leaf ≠ []) : storedAs (par ++ leaf) = capitals (comps par ++ [shownName leaf]) := by
  unfold storedAs
  rw [Fat.comps_leaf hpar hv hne, List.getLast?_concat, List.dropLast_concat]

/-- A write puts its file there and nothing elsewhere. -/
theorem writes_catalog {v v' : Fat.Files} {path buf : Str} (h : v.Writes path buf v') :
    ∃ abs, abspath v.cwd path = some abs ∧ v'.cwd = v.cwd ∧
      v'.catalog (storedAs abs) = some (holding buf) ∧
      ∀ q, capitals q ≠ storedAs abs → v'.catalog q = v.catalog q := by
  obtain ⟨par, leaf, habs, hpar, hleaf, hto, -, -, rfl⟩ := h
  have hne : leaf ≠ [] := by
    rintro rfl
    exact hto rfl
  have hstored := storedAs_leaf hpar hleaf hne
  refine ⟨_, habs, rfl, ?_, fun q hq => ?_⟩
  · refine if_pos ?_
    rw [storedAs_capitals, hstored]
  · rw [hstored] at hq
    exact if_neg hq

/-! ## Runs -/

/-- The event writes no file that would be found under `key`. -/
def Apart (key : List Str) (s : Sys) (e : Event) : Prop :=
  ∀ f mem path buf p abs, e = .call f mem → request f mem = some (.call (.fwrite path buf), p) →
    abspath s.k.fs.fat.cwdPath path = some abs → storedAs abs ≠ key

/-- The steps of a run without such events. -/
def StaysApart (key : List Str) (s : Sys) (e : Event) (o : Reply) (s' : Sys) : Prop :=
  Apart key s e ∧ Stays s e o s'

/-- One answer, for a name that is not written. -/
theorem answer_kept {v v' : Fat.Files} {q : Request} {r : Int × Str} {key : List Str}
    (h : FilesAnswer v q r v') (hkey : capitals key = key)
    (hq : ∀ path buf abs, q = .call (.fwrite path buf) → abspath v.cwd path = some abs →
      storedAs abs ≠ key) : v'.catalog key = v.catalog key := by
  unfold FilesAnswer at h
  split at h
  case h_2 path buf =>
    rcases h with ⟨-, hw⟩ | ⟨-, rfl⟩
    · obtain ⟨abs, habs, -, -, hother⟩ := writes_catalog hw
      refine hother key ?_
      rw [hkey]
      exact (hq path buf abs rfl habs).symm
    · rfl
  case h_3 =>
    obtain ⟨-, rfl⟩ := h
    rfl
  case h_7 => exact h.elim
  all_goals
    obtain ⟨rfl, -⟩ := h
    rfl

/-- One event. -/
theorem asked_kept {s : Sys} {e : Event} {o : Reply} {v : Fat.Files} {key : List Str}
    (ha : Asked FilesAnswer s.k.fs.fat.files e o v) (hkey : capitals key = key)
    (hapart : Apart key s e) : v.catalog key = s.k.fs.fat.files.catalog key := by
  unfold Asked at ha
  split at ha
  · next f mem =>
    split at ha
    · next q p hq =>
      obtain ⟨r, hr, -⟩ := ha
      refine answer_kept hr hkey fun path buf abs he habs => ?_
      subst he
      exact hapart f mem path buf p abs rfl hq habs
    · rw [ha]
  · rw [ha]

/-- A volume is mounted, and has this under `key`. -/
def Has (key : List Str) (it : Kind) (s : Sys) : Prop :=
  ∃ v, Served s.k.fs v ∧ v.catalog key = some it

theorem Has.step {s s' : Sys} {e : Event} {o : Reply} {key : List Str} {it : Kind}
    (h : Has key it s) (hkey : capitals key = key) (hs : StaysApart key s e o s') :
    Has key it s' := by
  obtain ⟨v, hv, hc⟩ := h
  obtain ⟨hapart, hs⟩ := hs
  obtain ⟨v', ha, hv'⟩ := hv.step hs
  obtain rfl := hv.files
  exact ⟨v', hv', (asked_kept ha hkey hapart).trans hc⟩

theorem Has.run {s s' : Sys} {rs : List (Event × Reply)} {key : List Str} {it : Kind}
    (h : Has key it s) (hkey : capitals key = key) (hrun : Allows (StaysApart key) s rs s') :
    Has key it s' :=
  hrun.rule (fun _ _ _ _ h hs => h.step hkey hs) h

section

variable {s s' : Sys} {f : SyscallFrame} {mem mem' : Memory} {path buf abs : Str} {p : BitVec 64}

/-- A write that returned 0 has stored its file. -/
theorem Served.saved {v : Fat.Files} (hv : Served s.k.fs v)
    (hreq : Kernel.request f mem = some (.call (.fwrite path buf), p))
    (habs : abspath s.k.fs.fat.cwdPath path = some abs)
    (hs : Stays s (.call f mem) (.back 0 mem') s') : Has (storedAs abs) (holding buf) s' := by
  obtain ⟨v', ha, hv'⟩ := hv.step hs
  unfold Asked at ha
  dsimp only at ha
  rw [hreq] at ha
  obtain ⟨r, hr, he⟩ := ha
  obtain ⟨hrax, -⟩ := Reply.back.inj he
  rcases hr with ⟨-, hw⟩ | ⟨rfl, -⟩
  · obtain ⟨abs', habs', -, hput, -⟩ := writes_catalog hw
    rw [← hv.files] at habs'
    obtain rfl := Option.some.inj (habs'.symm.trans habs)
    exact ⟨v', hv', hput⟩
  · exact absurd hrax (by decide)

/-- A read gets what is there. -/
theorem Has.read {key : List Str} (h : Has key (holding buf) s) {cap : Nat}
    (hreq : request f mem = some (.fread path cap, p))
    (habs : abspath s.k.fs.fat.cwdPath path = some abs) (hsame : capitals (comps abs) = key)
    (hslash : abs.getLast? ≠ some slash) {o : Reply} (hs : Stays s (.call f mem) o s') :
    o = .back (BitVec.ofInt 64 (min buf.length cap : Nat)) (store mem p (buf.take cap)) := by
  obtain ⟨v, hv, hc⟩ := h
  obtain ⟨v', ha, -⟩ := hv.step hs
  unfold Asked at ha
  dsimp only at ha
  rw [hreq] at ha
  obtain ⟨r, ⟨-, hr⟩, rfl⟩ := ha
  obtain rfl := hv.files
  have hfile : s.k.fs.fat.files.catalog (comps abs) = some (holding buf) := by
    rw [← hc, ← hsame]
    exact (Fat.catalog_capitals _ _ _).symm
  have hres : s.k.fs.fat.files.read path cap = (some (min buf.length cap), buf.take cap) := by
    unfold Fat.Files.read
    rw [show abspath s.k.fs.fat.files.cwd path = some abs from habs]
    dsimp only
    rw [hfile]
    exact if_neg hslash
  rw [hr, hres]
  rfl

end

/-- **What was saved stays.** A program wrote `buf` to `abs` and was told so; no file of that name
is written after it; then whoever reads that name, in any spelling, is given `buf`. -/
theorem saved_stays {s₀ s₁ s₂ s₃ : Sys} {f₁ f₂ : SyscallFrame} {mem₁ mem₁' mem₂ : Memory}
    {path path' buf abs abs' : Str} {cap : Nat} {p₁ p₂ : BitVec 64} {rs : List (Event × Reply)}
    {o : Reply} (hm : s₀.k.fs.mounted = true) (hf : s₀.k.fs.fat.isMounted = true)
    (hok : Sound s₀.k.fs.fat)
    (hreq₁ : request f₁ mem₁ = some (.call (.fwrite path buf), p₁))
    (habs : abspath s₀.k.fs.fat.cwdPath path = some abs)
    (hsaved : Stays s₀ (.call f₁ mem₁) (.back 0 mem₁') s₁)
    (hrun : Allows (StaysApart (storedAs abs)) s₁ rs s₂)
    (hreq₂ : request f₂ mem₂ = some (.fread path' cap, p₂))
    (habs' : abspath s₂.k.fs.fat.cwdPath path' = some abs')
    (hsame : capitals (comps abs') = storedAs abs) (hslash : abs'.getLast? ≠ some slash)
    (hread : Stays s₂ (.call f₂ mem₂) o s₃) :
    o = .back (BitVec.ofInt 64 (min buf.length cap : Nat)) (store mem₂ p₂ (buf.take cap)) := by
  have hv₀ : Served s₀.k.fs s₀.k.fs.fat.files := ⟨hm, hf, hok, rfl⟩
  have hstored := hv₀.saved hreq₁ habs hsaved
  exact (hstored.run (storedAs_capitals abs) hrun).read hreq₂ habs' hsame hslash hread

/-! ## A small run -/

/-- `/H` at `0x1000`, and `/g` there. -/
def memH : Memory := fun p => if p = 0x1001 then 72 else memG p

def memLower : Memory := fun p => if p = 0x1001 then 103 else memG p

/-- The write of `/G` on a volume where it works. -/
theorem writeG_saved {k : Statics} (hm : k.fs.mounted = true) (hcwd : k.fs.fat.cwdPath = [slash])
    (hok : (Fat.fatWrite 128 [slash, 71] [1, 2] k.fs.fat).map Prod.fst = some true) :
    ∃ s, Stays ⟨k, .user⟩ (.call writeG memG) (.back 0 memG) s ∧ s.cpu = .user ∧
      s.k.fs.fat.cwdPath = [slash] := by
  obtain ⟨⟨ok, f'⟩, hr, hr'⟩ := Option.map_eq_some_iff.mp hok
  obtain rfl : ok = true := hr'
  have hrun : (Request.call (.fwrite [slash, 71] [1, 2])).run 128 k.fs =
      some ((0, []), { k.fs with fat := f' }) := by
    rw [Request.run, Fs.Call.run, fsFwrite, if_pos hm, hr]
    · rfl
    · simp
  have hstep := steps_request (k := k) request_writeG hrun
  rw [store_nil] at hstep
  refine ⟨_, ⟨hstep, fun q p hq => ?_, ?_⟩, rfl, ?_⟩
  · rw [request_writeG] at hq
    obtain ⟨rfl, -⟩ := Prod.mk.inj (Option.some.inj hq)
    trivial
  · show k.fs.fat.cwdPath.length ≤ 254
    rw [hcwd]
    decide
  · obtain ⟨ws, sec, n, rfl⟩ := Fat.fatWrite_moved hr
    exact hcwd

theorem request_writeH : request writeG memH = some (.call (.fwrite [slash, 72] [1, 2]), 0) := rfl

theorem request_readLower : request readG memLower = some (.fread [slash, 103] 8, 0x3000) := rfl

/-- `/G` is saved; a key is pressed and `/H` is written; `/g` is read. -/
theorem saved_stays_sample : ∃ s₁ s₂ s₃ o₂ o₃, Stays volSys (.call writeG memG) (.back 0 memG) s₁ ∧
    Allows Stays s₁ [(.irq 0x1E, .silent), (.call writeG memH, o₂)] s₂ ∧
    Stays s₂ (.call readG memLower) o₃ s₃ ∧ o₃ = .back 2 (store memLower 0x3000 [1, 2]) := by
  obtain ⟨s₁, hsaved, hcpu, hcwd⟩ : ∃ s, Stays volSys (.call writeG memG) (.back 0 memG) s ∧
      s.cpu = .user ∧ s.k.fs.fat.cwdPath = [slash] :=
    writeG_saved volSys_served.mounted (Fat.fatMount_cwd Fat.sampleMounted_eq).1
      (show (Fat.fatWrite 128 [slash, 71] [1, 2] Fat.sampleMounted).map Prod.fst = some true by
        decide +kernel)
  obtain ⟨v₁, -, hv₁⟩ := volSys_served.step hsaved
  obtain ⟨s, hkey, hcpu', hfs⟩ : ∃ s, Stays s₁ (.irq 0x1E) .silent s ∧ s.cpu = .user ∧
      s.k.fs = s₁.k.fs := by
    refine ⟨⟨{ s₁.k with kbd := (Drivers.keyboardHandler 0x1E s₁.k.kbd).2.2 }, .user⟩,
      ⟨⟨0, ?_⟩, trivial, by rw [hcwd]; decide⟩, rfl, rfl⟩
    unfold step
    rw [hcpu]
  have hv : Served s.k.fs v₁ := by rwa [hfs]
  have hcwd₁ : v₁.cwd = [slash] := by rw [← hv₁.files]; exact hcwd
  obtain ⟨r₂, v₂, s₂, hwrite, ha₂, hv₂, hcpu₂⟩ :=
    hv.stays hcpu' (by rw [hcwd₁]; decide) request_writeH trivial
  have hcwd₂ : v₂.cwd = [slash] := by
    rcases ha₂ with ⟨-, hw⟩ | ⟨-, rfl⟩
    · obtain ⟨-, -, hc, -⟩ := writes_catalog hw
      rw [hc, hcwd₁]
    · exact hcwd₁
  obtain ⟨r₃, v₃, s₃, hread, -⟩ :=
    hv₂.stays hcpu₂ (by rw [hcwd₂]; decide) request_readLower trivial
  have hapart : Allows (StaysApart (storedAs [slash, 71])) s₁
      [(.irq 0x1E, .silent),
        (.call writeG memH, .back (BitVec.ofInt 64 r₂.1) (store memH 0 r₂.2))] s₂ := by
    refine .cons ⟨fun f mem path buf p abs he => absurd he (by simp), hkey⟩
      (.cons ⟨fun f mem path buf p abs he hq habs => ?_, hwrite⟩ (.nil _))
    obtain ⟨rfl, rfl⟩ := Event.call.inj he
    rw [request_writeH] at hq
    obtain ⟨hq, -⟩ := Prod.mk.inj (Option.some.inj hq)
    obtain ⟨rfl, -⟩ := Fs.Call.fwrite.inj (Request.call.inj hq)
    obtain rfl : [slash, 72] = abs := Option.some.inj habs
    decide
  exact ⟨s₁, s₂, s₃, _, _, hsaved, .cons hkey (.cons hwrite (.nil _)), hread,
    saved_stays volSys_served.mounted volSys_served.agree volSys_served.sound request_writeG rfl
      hsaved hapart request_readLower (rfl : _ = some [slash, 103]) (by decide) (by decide) hread⟩

end InaneOS.Kernel
