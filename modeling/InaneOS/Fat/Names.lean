import InaneOS.Fat.Disk
import Mathlib.Data.List.TakeWhile

/-!
# Paths, 8.3 names and directory entries

The string side of `kernel/fat.c`: `abspath` turns a path into an absolute one,
`to83` turns its last component into the eleven bytes stored on disk,
`entry_name` turns such bytes back into text, and `name_match` compares that
text with what the user typed. A C string is the list of its bytes without the
closing NUL.

The write side looks names up by `to83` and the read side by `entry_name` and
`name_match`, so the two only find the same entry because stored names can be
split into a base and an extension in one way: `ValidName` says what a stored
name looks like, `entryName_valid` what it is rendered as, `render_inj` that the
rendering loses nothing and `to83_spec` that the write side stores such names.
-/

namespace InaneOS.Fat

open InaneOS.Lib

/-- A C string: its bytes up to the NUL. -/
abbrev Str := List UInt8

def slash : UInt8 := 47
def dot : UInt8 := 46
def blank : UInt8 := 32

def attrDir : UInt8 := 0x10
def attrVol : UInt8 := 0x08
def attrLfn : UInt8 := 0x0F

/-! ## Comparing strings -/

def nameSame : Str → Str → Bool
  | [], [] => true
  | a :: as, b :: bs => if a = b then nameSame as bs else false
  | _, _ => false

/-- `if (c >= 'a' && c <= 'z') c -= 32` -/
def upper (c : UInt8) : UInt8 := if 97 ≤ c ∧ c ≤ 122 then c - 32 else c

def nameMatch : Str → Str → Bool
  | d :: ds, c :: cs => if d ≠ upper c then false else nameMatch ds cs
  | [], [] => true
  | _, _ => false

theorem nameSame_iff : ∀ {a b : Str}, nameSame a b = true ↔ a = b
  | [], [] => by simp [nameSame]
  | [], _ :: _ => by simp [nameSame]
  | _ :: _, [] => by simp [nameSame]
  | a :: as, b :: bs => by
    by_cases hab : a = b
    · simp [nameSame, hab, nameSame_iff]
    · simp [nameSame, hab]

theorem nameMatch_iff : ∀ {d c : Str}, nameMatch d c = true ↔ d = c.map upper
  | [], [] => by simp [nameMatch]
  | [], _ :: _ => by simp [nameMatch]
  | _ :: _, [] => by simp [nameMatch]
  | d :: ds, c :: cs => by
    by_cases hdc : d = upper c
    · simp [nameMatch, hdc, nameMatch_iff]
    · simp [nameMatch, hdc]

/-! ## Absolute paths -/

/-- `while (*p == '/') p++` -/
def skipSlash (p : Str) : Str := p.dropWhile (· == slash)

/-- `while (p[m] && p[m] != '/' && m < n) m++`, from `m = 0` -/
def compLen : Nat → Str → Nat
  | 0, _ => 0
  | _ + 1, [] => 0
  | n + 1, c :: p => if c = slash then 0 else compLen n p + 1

/-- `p[m] && p[m] != '/'`: the component goes on past the `m` bytes taken. -/
def goesOn (p : Str) : Bool :=
  match p with
  | [] => false
  | c :: _ => c != slash

/-- `for (i < m) { if (n + 1 >= PATH_MAX) return -1; out[n++] = comp[i]; }` -/
def pushComp (out : Str) : Str → Option Str
  | [] => some out
  | c :: cs => if out.length + 1 ≥ 256 then none else pushComp (out ++ [c]) cs

/-- `while (n > 1 && out[n - 1] != '/') n--` -/
def upLoop (out : Str) : Nat → Nat
  | 0 => 0
  | n + 1 => if n + 1 > 1 ∧ out[n]? ≠ some slash then upLoop out n else n + 1

/-- What `..` does to the path built so far. -/
def upPath (out : Str) : Str :=
  let n := upLoop out out.length
  out.take (if n > 1 then n - 1 else n)

/-- The component loop of `abspath`; each round takes at least one byte of the
path, so its length bounds the rounds. -/
def abspathLoop : Nat → Str → Str → Option Str
  | 0, _, out => some out
  | k + 1, path, out =>
    let p := skipSlash path
    if p = [] then some out
    else
      let m := compLen 12 p
      if m = 0 ∨ goesOn (p.drop m) then none
      else if nameSame (p.take m) [dot] then abspathLoop k (p.drop m) out
      else if nameSame (p.take m) [dot, dot] then abspathLoop k (p.drop m) (upPath out)
      else
        match pushComp (if out.length > 1 then out ++ [slash] else out) (p.take m) with
        | none => none
        | some out => abspathLoop k (p.drop m) out

/-- `abspath(path, out)` under the current directory `cwd`; `none` is `-1`. -/
def abspath (cwd path : Str) : Option Str :=
  match path with
  | [] => abspathLoop 0 [] (let out := cwd.take 255; if out.length > 1 then out ++ [slash] else out)
  | c :: rest =>
    if c = slash then abspathLoop rest.length rest [slash]
    else
      abspathLoop path.length path
        (let out := cwd.take 255; if out.length > 1 then out ++ [slash] else out)

/-! ## Directory entries -/

/-- The 32 bytes from `o` of a sector. -/
def entryAt (s : Sector) (o : Nat) : Nat → UInt8 := fun i => s (o + i)

/-- The bytes of a `char` array up to its first NUL. -/
def cstr (l : Str) : Str := l.takeWhile (· != 0)

/-- `entry_name(e, out)`; `none` is `-1`. -/
def entryName (e : Nat → UInt8) : Option Str :=
  if e 0 = 0x00 ∨ e 0 = 0xE5 then none
  else if e 11 &&& attrLfn = attrLfn ∨ e 11 &&& attrVol ≠ 0 then none
  else
    let base := ((List.range 8).map e).takeWhile (· != blank)
    let ext := ((List.range 3).map fun i => e (8 + i)).takeWhile (· != blank)
    let out := cstr (if e 8 ≠ blank then base ++ dot :: ext else base)
    if nameSame out [dot] ∨ nameSame out [dot, dot] then none else some out

/-- First cluster of an entry. -/
def entClus (e : Nat → UInt8) : Nat :=
  (e 20).toNat <<< 16 ||| (e 21).toNat <<< 24 ||| rd16 e 26

/-- Size field of an entry. -/
def entSize (e : Nat → UInt8) : Nat := rd32 e 28

def entIsDir (e : Nat → UInt8) : Bool := e 11 &&& attrDir != 0

def entryMatch83 (e : Nat → UInt8) (name83 : Str) : Bool :=
  (List.range 11).all fun i => e i == name83.getD i 0

/-! ## Names as the write side stores them -/

/-- `A..Z`, `0..9`, `_` and `-`. -/
def okChar (c : UInt8) : Bool :=
  (65 ≤ c && c ≤ 90) || (48 ≤ c && c ≤ 57) || c == 95 || c == 45

/-- One of the two copying loops of `to83`: at most `n` characters, the base
stopping at a dot; the characters stored and what is left of the input. -/
def take83 (stopDot : Bool) : Nat → Str → Option (Str × Str)
  | 0, l => some ([], l)
  | _ + 1, [] => some ([], [])
  | n + 1, c :: l =>
    if stopDot ∧ c = dot then some ([], c :: l)
    else if okChar (upper c) then
      match take83 stopDot n l with
      | none => none
      | some (b, r) => some (upper c :: b, r)
    else none

/-- `out[k] = ' '` for the places no character was stored in. -/
def pad (n : Nat) (s : Str) : Str := s ++ List.replicate (n - s.length) blank

/-- `to83(in, out)`; `none` is `-1`. -/
def to83 (inp : Str) : Option Str :=
  match take83 true 8 inp with
  | none => none
  | some (base, []) => if base = [] then none else some (pad 8 base ++ pad 3 [])
  | some (base, c :: rest) =>
    if c ≠ dot then none
    else
      match take83 false 3 rest with
      | some (ext, []) => if base = [] then none else some (pad 8 base ++ pad 3 ext)
      | _ => none

/-- `fill_entry(sec + o, name83, attr, clus, size)` -/
def fillEntry (s : Sector) (o : Nat) (name83 : Str) (attr : UInt8) (clus size : Nat) : Sector :=
  let s : Sector := fun i => if o ≤ i ∧ i < o + 11 then name83.getD (i - o) 0 else s i
  let s := setByte s (o + 11) attr
  let s : Sector := fun i => if o + 12 ≤ i ∧ i < o + 20 then 0 else s i
  let s := wr16 s (o + 20) (clus >>> 16 &&& 0xFFFF)
  let s := wr16 s (o + 22) 0x0021
  let s := wr16 s (o + 24) 0x0021
  let s := wr16 s (o + 26) (clus &&& 0xFFFF)
  wr32 s (o + 28) size

/-! ## What `fill_entry` stores -/

section FillEntry

variable {s : Sector} {o : Nat} {name83 : Str} {attr : UInt8} {clus size : Nat}

theorem fillEntry_other {i : Nat} (h : i < o ∨ o + 32 ≤ i) :
    fillEntry s o name83 attr clus size i = s i := by
  unfold fillEntry
  rw [wr32_other _ (by omega), wr16_other _ (by omega), wr16_other _ (by omega),
    wr16_other _ (by omega), wr16_other _ (by omega), if_neg (by omega),
    setByte_ne _ _ (by omega), if_neg (by omega)]

theorem fillEntry_name {i : Nat} (h : i < 11) :
    fillEntry s o name83 attr clus size (o + i) = name83.getD i 0 := by
  unfold fillEntry
  rw [wr32_other _ (by omega), wr16_other _ (by omega), wr16_other _ (by omega),
    wr16_other _ (by omega), wr16_other _ (by omega), if_neg (by omega),
    setByte_ne _ _ (by omega), if_pos (by omega), Nat.add_sub_cancel_left]

theorem fillEntry_attr : fillEntry s o name83 attr clus size (o + 11) = attr := by
  unfold fillEntry
  rw [wr32_other _ (by omega), wr16_other _ (by omega), wr16_other _ (by omega),
    wr16_other _ (by omega), wr16_other _ (by omega), if_neg (by omega), setByte_same]

theorem and_ffff (n : Nat) : n &&& 0xFFFF = n % 2 ^ 16 := Nat.and_two_pow_sub_one_eq_mod n 16

theorem fillEntry_hi :
    rd16 (fillEntry s o name83 attr clus size) (o + 20) = clus / 2 ^ 16 % 2 ^ 16 := by
  unfold fillEntry
  rw [rd16_congr fun i hi hi' => ((wr32_other _ (by omega)).trans (wr16_other _ (by omega))).trans
    ((wr16_other _ (by omega)).trans (wr16_other _ (by omega))), and_ffff,
    rd16_wr16 _ _ (Nat.mod_lt _ (by decide)), Nat.shiftRight_eq_div_pow]

theorem fillEntry_lo :
    rd16 (fillEntry s o name83 attr clus size) (o + 26) = clus % 2 ^ 16 := by
  unfold fillEntry
  have hlt := Nat.mod_lt clus (show 2 ^ 16 > 0 by decide)
  simp only [and_ffff clus]
  exact (rd16_congr fun i hi hi' => wr32_other _ (by omega)).trans (rd16_wr16 _ _ hlt)

theorem fillEntry_size (h : size < 2 ^ 32) :
    entSize (entryAt (fillEntry s o name83 attr clus size) o) = size := rd32_wr32 _ _ h

/-- The first cluster field is split over two 16-bit fields. -/
theorem entClus_eq (e : Nat → UInt8) : entClus e = rd16 e 26 + 2 ^ 16 * rd16 e 20 := by
  have h0 := (e 20).toNat_lt
  have hlo : rd16 e 26 < 2 ^ 16 := by rw [rd16_eq]; exact getLE_lt e 2 26
  have hhi : (e 20).toNat <<< 16 ||| (e 21).toNat <<< 24 = rd16 e 20 <<< 16 := by
    rw [rd16, Nat.shiftLeft_or_distrib, ← Nat.shiftLeft_add]
  rw [entClus, hhi, Nat.or_comm, or_shiftLeft _ hlo]

theorem fillEntry_clus (h : clus < 2 ^ 32) :
    entClus (entryAt (fillEntry s o name83 attr clus size) o) = clus := by
  rw [entClus_eq]
  show rd16 (fillEntry s o name83 attr clus size) (o + 26)
    + 2 ^ 16 * rd16 (fillEntry s o name83 attr clus size) (o + 20) = clus
  rw [fillEntry_lo, fillEntry_hi]
  omega

end FillEntry

/-! ## Valid stored names -/

/-- A character of an upper-case 8.3 name: printable, no blank, dot, slash or
lower-case letter. The characters `to83` stores are among them. -/
def validChar (c : UInt8) : Bool :=
  32 < c && c != dot && c != slash && !(97 ≤ c && c ≤ 122)

/-- A base of one to eight characters and an extension of at most three. -/
structure ValidParts (base ext : Str) : Prop where
  base_pos : base ≠ []
  base_le : base.length ≤ 8
  ext_le : ext.length ≤ 3
  base_ok : ∀ c ∈ base, validChar c = true
  ext_ok : ∀ c ∈ ext, validChar c = true

/-- The eleven name bytes of an entry. -/
def raw11 (e : Nat → UInt8) : Str := (List.range 11).map e

/-- The name bytes are a blank-padded base and extension. -/
def ValidName (e : Nat → UInt8) : Prop :=
  ∃ base ext, ValidParts base ext ∧ raw11 e = pad 8 base ++ pad 3 ext

/-- The text of a stored name. -/
def render (base ext : Str) : Str := if ext = [] then base else base ++ dot :: ext

theorem validChar_iff {c : UInt8} : validChar c = true ↔
    32 < c.toNat ∧ c.toNat ≠ 46 ∧ c.toNat ≠ 47 ∧ (c.toNat < 97 ∨ 122 < c.toNat) := by
  simp only [validChar, dot, slash, Bool.and_eq_true, decide_eq_true_eq, bne_iff_ne, ne_eq,
    Bool.not_eq_true', Bool.and_eq_false_iff, decide_eq_false_iff_not, UInt8.lt_iff_toNat_lt,
    UInt8.le_iff_toNat_le, ← UInt8.toNat_inj, UInt8.reduceToNat, not_le]
  tauto

theorem validChar_of_ok {c : UInt8} (h : okChar c = true) : validChar c = true := by
  simp only [okChar, Bool.or_eq_true, Bool.and_eq_true, decide_eq_true_eq, beq_iff_eq,
    UInt8.le_iff_toNat_le, ← UInt8.toNat_inj, UInt8.reduceToNat] at h
  rw [validChar_iff]
  omega

theorem ne_of_validChar {c : UInt8} (h : validChar c = true) :
    c ≠ blank ∧ c ≠ dot ∧ c ≠ slash ∧ c ≠ 0 := by
  rw [validChar_iff] at h
  refine ⟨?_, ?_, ?_, ?_⟩ <;>
  · intro he
    subst he
    simp [blank, dot, slash] at h

theorem pad_length {n : Nat} {s : Str} (h : s.length ≤ n) : (pad n s).length = n := by
  simp only [pad, List.length_append, List.length_replicate]
  omega

/-- Cutting a padded field at its first blank gives back what was padded. -/
theorem takeWhile_pad {n : Nat} {s : Str} (h : ∀ c ∈ s, validChar c = true) :
    (pad n s).takeWhile (· != blank) = s := by
  have hs : ∀ c ∈ s, (c != blank) = true := fun c hc => by
    simpa using (ne_of_validChar (h c hc)).1
  have hrep : (List.replicate (n - s.length) blank).takeWhile (· != blank) = [] := by
    cases n - s.length with
    | zero => rfl
    | succ k => simp [List.replicate_succ]
  rw [pad, List.takeWhile_append_of_pos hs, hrep, List.append_nil]

theorem raw11_split (e : Nat → UInt8) :
    raw11 e = (List.range 8).map e ++ (List.range 3).map fun i => e (8 + i) := rfl

/-- The two fields of the name bytes, when they are known to be padded parts. -/
theorem raw11_fields {e : Nat → UInt8} {base ext : Str} (hp : ValidParts base ext)
    (h : raw11 e = pad 8 base ++ pad 3 ext) :
    (List.range 8).map e = pad 8 base ∧ ((List.range 3).map fun i => e (8 + i)) = pad 3 ext := by
  rw [raw11_split] at h
  refine List.append_inj h ?_
  rw [pad_length hp.base_le]
  simp

theorem render_ok {base ext : Str} (hp : ValidParts base ext) :
    ∃ c cs, render base ext = c :: cs ∧ c ≠ dot ∧ ∀ x ∈ c :: cs, x ≠ 0 := by
  cases hb : base with
  | nil => exact absurd hb hp.base_pos
  | cons c cs =>
    have hc := ne_of_validChar (hp.base_ok c (by rw [hb]; exact List.mem_cons_self ..))
    have hmem : ∀ x ∈ render base ext, x ≠ 0 := by
      intro x hx
      unfold render at hx
      split at hx
      · exact (ne_of_validChar (hp.base_ok x hx)).2.2.2
      · rcases List.mem_append.mp hx with h | h
        · exact (ne_of_validChar (hp.base_ok x h)).2.2.2
        · rcases List.mem_cons.mp h with rfl | h
          · decide
          · exact (ne_of_validChar (hp.ext_ok x h)).2.2.2
    rw [hb] at hmem
    unfold render at hmem ⊢
    split
    next he => exact ⟨c, cs, rfl, hc.2.1, by rwa [if_pos he] at hmem⟩
    next he => exact ⟨c, cs ++ dot :: ext, rfl, hc.2.1, by rwa [if_neg he] at hmem⟩

/-- An entry is skipped by both sides when deleted, free, a label or a long name. -/
def Live (e : Nat → UInt8) : Prop :=
  e 0 ≠ 0x00 ∧ e 0 ≠ 0xE5 ∧ e 11 &&& attrLfn ≠ attrLfn ∧ e 11 &&& attrVol = 0

/-- A live entry with a valid name is shown under that name. -/
theorem entryName_valid {e : Nat → UInt8} {base ext : Str} (hl : Live e)
    (hp : ValidParts base ext) (h : raw11 e = pad 8 base ++ pad 3 ext) :
    entryName e = some (render base ext) := by
  obtain ⟨hb, hx⟩ := raw11_fields hp h
  have he8 : e 8 ≠ blank ↔ ext ≠ [] := by
    have h8 : (pad 3 ext)[0]? = some (e 8) := by rw [← hx]; rfl
    cases ext with
    | nil => simpa [pad, eq_comm] using h8
    | cons c cs =>
      have hc := (ne_of_validChar (hp.ext_ok c (List.mem_cons_self ..))).1
      simp only [pad, List.cons_append, List.length_cons, List.getElem?_cons_zero,
        Option.some.injEq] at h8
      simp [← h8, hc]
  have hout : (if e 8 ≠ blank then base ++ dot :: ext else base) = render base ext := by
    unfold render
    by_cases hn : ext = []
    · rw [if_neg (by simpa [hn] using he8), if_pos hn]
    · rw [if_pos (he8.mpr hn), if_neg hn]
  obtain ⟨c, cs, hr, hcd, hnz⟩ := render_ok hp
  have hcut : cstr (render base ext) = render base ext := by
    rw [cstr, List.takeWhile_eq_self_iff, hr]
    intro x hx
    simpa using hnz x hx
  have hdot : ¬ (nameSame (render base ext) [dot] = true ∨
      nameSame (render base ext) [dot, dot] = true) := by
    rw [nameSame_iff, nameSame_iff, hr]
    simp [hcd]
  unfold entryName
  rw [if_neg (not_or.mpr ⟨hl.1, hl.2.1⟩), if_neg (not_or.mpr ⟨hl.2.2.1, not_not.mpr hl.2.2.2⟩)]
  simp only [hb, hx, takeWhile_pad hp.base_ok, takeWhile_pad hp.ext_ok]
  rw [hout, hcut, if_neg hdot]

/-- Only live entries have a name. -/
theorem live_of_entryName {e : Nat → UInt8} {nm : Str} (h : entryName e = some nm) : Live e := by
  unfold entryName at h
  split at h
  next => exact absurd h (by simp)
  next h1 =>
    split at h
    next => exact absurd h (by simp)
    next h2 =>
      rw [not_or] at h1 h2
      exact ⟨h1.1, h1.2, h2.1, not_not.mp h2.2⟩

/-- `fill_entry` stores the name it is given. -/
theorem fillEntry_raw11 {s : Sector} {o : Nat} {name83 : Str} {attr : UInt8} {clus size : Nat}
    (h : name83.length = 11) :
    raw11 (entryAt (fillEntry s o name83 attr clus size) o) = name83 := by
  refine List.ext_getElem? fun i => ?_
  rcases Nat.lt_or_ge i 11 with hi | hi
  · have hget : name83[i]? = some (name83.getD i 0) := by
      rw [List.getD_eq_getElem?_getD, List.getElem?_eq_getElem (by omega)]
      rfl
    rw [hget, raw11, List.getElem?_map, List.getElem?_range hi]
    exact congrArg some (fillEntry_name hi)
  · have hlen : (raw11 (entryAt (fillEntry s o name83 attr clus size) o)).length = 11 := by
      simp [raw11]
    rw [List.getElem?_eq_none (by omega), List.getElem?_eq_none (by omega)]

theorem takeWhile_render {base ext : Str} (hp : ValidParts base ext) :
    (render base ext).takeWhile (· != dot) = base := by
  have hb : ∀ c ∈ base, (c != dot) = true := fun c hc => by
    simpa using (ne_of_validChar (hp.base_ok c hc)).2.1
  unfold render
  split
  · exact List.takeWhile_eq_self_iff.mpr hb
  · rw [List.takeWhile_append_of_pos hb]
    simp

/-- The rendered name determines the parts. -/
theorem render_inj {b x b' x' : Str} (hp : ValidParts b x) (hp' : ValidParts b' x')
    (h : render b x = render b' x') : b = b' ∧ x = x' := by
  have hb : b = b' := by rw [← takeWhile_render hp, ← takeWhile_render hp', h]
  subst hb
  refine ⟨rfl, ?_⟩
  unfold render at h
  split at h <;> split at h
  next h1 h2 => rw [h1, h2]
  next => simp at h
  next => simp at h
  next => simpa using h

/-! ## The names `to83` makes -/

theorem take83_spec {b : Bool} : ∀ {n : Nat} {l s r : Str}, take83 b n l = some (s, r) →
    ∃ l₁, l = l₁ ++ r ∧ s = l₁.map upper ∧ s.length ≤ n ∧ ∀ c ∈ s, okChar c = true
  | 0, l, s, r, h => by
    simp only [take83, Option.some.injEq, Prod.mk.injEq] at h
    obtain ⟨rfl, rfl⟩ := h
    exact ⟨[], rfl, rfl, Nat.le_refl _, by simp⟩
  | n + 1, [], s, r, h => by
    simp only [take83, Option.some.injEq, Prod.mk.injEq] at h
    obtain ⟨rfl, rfl⟩ := h
    exact ⟨[], rfl, rfl, Nat.zero_le _, by simp⟩
  | n + 1, c :: l, s, r, h => by
    simp only [take83] at h
    split at h
    next =>
      simp only [Option.some.injEq, Prod.mk.injEq] at h
      obtain ⟨rfl, rfl⟩ := h
      exact ⟨[], rfl, rfl, Nat.zero_le _, by simp⟩
    next =>
      split at h
      next hok =>
        split at h
        next => exact absurd h (by simp)
        next b' r' hrec =>
          simp only [Option.some.injEq, Prod.mk.injEq] at h
          obtain ⟨rfl, rfl⟩ := h
          obtain ⟨l₁, rfl, rfl, hlen, hall⟩ := take83_spec hrec
          refine ⟨c :: l₁, rfl, rfl, Nat.succ_le_succ hlen, fun x hx => ?_⟩
          rcases List.mem_cons.mp hx with rfl | hx
          · exact hok
          · exact hall x hx
      next => exact absurd h (by simp)

theorem upper_dot : upper dot = dot := by decide

/-- Only the dot is a dot in upper case. -/
theorem upper_eq_dot {c : UInt8} (h : upper c = dot) : c = dot := by
  unfold upper at h
  split at h
  next hc =>
    rw [UInt8.le_iff_toNat_le, UInt8.le_iff_toNat_le] at hc
    have ht := congrArg UInt8.toNat h
    rw [UInt8.toNat_sub_of_le _ _ (by rw [UInt8.le_iff_toNat_le]; simp at hc ⊢; omega)] at ht
    simp [dot] at ht hc
    omega
  next => exact h

theorem not_mem_of_ok {s : Str} (h : ∀ c ∈ s, okChar c = true) : 0xE5 ∉ s := fun hm =>
  absurd (h _ hm) (by decide)

/-- What `to83` accepts: the typed name in upper case is a valid base, alone or
with a dot and a valid (possibly empty) extension; the parts are stored padded,
and the first byte is not the mark of a deleted entry. -/
theorem to83_spec {inp n : Str} (h : to83 inp = some n) :
    ∃ base ext, ValidParts base ext ∧ n = pad 8 base ++ pad 3 ext ∧ 0xE5 ∉ base ∧
      (inp.map upper = base ∧ ext = [] ∨ inp.map upper = base ++ dot :: ext) := by
  unfold to83 at h
  split at h
  next => exact absurd h (by simp)
  next base hb =>
    split at h
    next => exact absurd h (by simp)
    next hne =>
      obtain ⟨l₁, rfl, rfl, hlen, hall⟩ := take83_spec hb
      refine ⟨l₁.map upper, [], ⟨hne, hlen, by simp, fun c hc => validChar_of_ok (hall c hc),
        by simp⟩, (Option.some.inj h).symm, not_mem_of_ok hall, Or.inl ⟨by simp, rfl⟩⟩
  next base c rest hb =>
    split at h
    next => exact absurd h (by simp)
    next hc =>
      split at h
      next ext hx =>
        split at h
        next => exact absurd h (by simp)
        next hne =>
          obtain ⟨l₁, rfl, rfl, hlen, hall⟩ := take83_spec hb
          obtain ⟨l₂, rfl, rfl, hlen₂, hall₂⟩ := take83_spec hx
          have hcd : c = dot := not_not.mp hc
          refine ⟨l₁.map upper, l₂.map upper, ⟨hne, hlen, hlen₂,
            fun c hc => validChar_of_ok (hall c hc), fun c hc => validChar_of_ok (hall₂ c hc)⟩,
            (Option.some.inj h).symm, not_mem_of_ok hall, Or.inr ?_⟩
          simp [hcd, upper_dot]
      next => exact absurd h (by simp)

end InaneOS.Fat
