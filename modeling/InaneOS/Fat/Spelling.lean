import InaneOS.Fat.FatWrite
import InaneOS.Fat.Certify

/-!
# One name, two readings

`fat_write` packs a name with `to83`; `walk` unpacks the stored one with
`entry_name` and compares it with `name_match`. Both only look at the name in
upper case (`to83_upper`, `nameMatch_iff`), so a spelling one of them takes is a
spelling the other takes, but for one kind: `to83` accepts a dot with nothing
behind it and stores no extension, and `entry_name` then shows no dot
(`names_agree`). A file written as `F.` is not found as `F.`.
-/

namespace InaneOS.Fat

open InaneOS.Lib

theorem upper_upper (c : UInt8) : upper (upper c) = upper c := by
  unfold upper
  split
  next h =>
    rw [if_neg]
    intro h'
    rw [UInt8.le_iff_toNat_le, UInt8.le_iff_toNat_le] at h h'
    rw [UInt8.toNat_sub_of_le _ _ (by rw [UInt8.le_iff_toNat_le]; simp at h ⊢; omega)] at h'
    simp at h h'
    omega
  next => rfl

/-- A copying loop reads its input in upper case. -/
theorem take83_upper (b : Bool) : ∀ (n : Nat) (l : Str),
    take83 b n (l.map upper) = (take83 b n l).map fun t => (t.1, t.2.map upper)
  | 0, _ => rfl
  | _ + 1, [] => rfl
  | n + 1, c :: l => by
    rw [List.map_cons, take83, take83]
    have hdot : upper c = dot ↔ c = dot := ⟨upper_eq_dot, fun h => by rw [h, upper_dot]⟩
    simp only [hdot, upper_upper, take83_upper b n l]
    split
    next => rfl
    next =>
      split
      next =>
        cases take83 b n l with
        | none => rfl
        | some t => rfl
      next => rfl

/-- So does `to83`. -/
theorem to83_upper (inp : Str) : to83 (inp.map upper) = to83 inp := by
  rw [to83, to83, take83_upper]
  rcases take83 true 8 inp with _ | ⟨base, _ | ⟨c, rest⟩⟩
  · rfl
  · rfl
  · have hdot : upper c ≠ dot ↔ c ≠ dot :=
      not_congr ⟨upper_eq_dot, fun h => by rw [h, upper_dot]⟩
    rw [Option.map_some, List.map_cons]
    dsimp only
    by_cases hc : c ≠ dot
    · rw [if_pos hc, if_pos (hdot.mpr hc)]
    · rw [if_neg hc, if_neg (mt hdot.mp hc), take83_upper]
      rcases take83 false 3 rest with _ | ⟨ext, _ | ⟨d, more⟩⟩
      · rfl
      · rfl
      · rfl

/-- The text of a stored name does not end in a dot. -/
theorem render_last {base ext : Str} (hp : ValidParts base ext) :
    (render base ext).getLast? ≠ some dot := by
  have hne : ∀ {s : Str}, (∀ c ∈ s, validChar c = true) → s.getLast? ≠ some dot := by
    intro s hs h
    exact (ne_of_validChar (hs dot (List.mem_of_getLast? h))).2.1 rfl
  rw [render]
  split
  next => exact hne hp.base_ok
  next hx =>
    rw [List.getLast?_append, List.getLast?_cons]
    cases hl : ext.getLast? with
    | none => exact absurd (List.getLast?_eq_none_iff.mp hl) hx
    | some c =>
      intro h
      refine hne hp.ext_ok ?_
      rw [hl]
      simpa using h

/-- **When both sides mean the same entry.** `e` is an entry stored under the name
`leaf` was packed to. It is shown, `leaf` is among the spellings `walk` takes for it,
each of those is packed to the same bytes, and `walk` stops at it, exactly when `leaf`
does not end in a dot. -/
theorem names_agree {leaf name83 : Str} {e : Nat → UInt8} (h : to83 leaf = some name83)
    (he : raw11 e = name83) (hattr : e 11 &&& attrLfn ≠ attrLfn ∧ e 11 &&& attrVol = 0) :
    (∃ nm, entryName e = some nm ∧ nameMatch nm leaf = true ∧
      (∀ x, nameMatch nm x = true → to83 x = some name83) ∧
      ∀ s o l p size, entryAt s o = e → goesOn p = false →
        walkBody leaf p size () l o s = .error (some ⟨entClus e, entIsDir e,
          if entIsDir e then size else entSize e⟩)) ↔ leaf.getLast? ≠ some dot := by
  obtain ⟨base, ext, hp, hn, h5, hleaf⟩ := to83_spec h
  have hraw : raw11 e = pad 8 base ++ pad 3 ext := he.trans hn
  have hlive : Live e := by
    obtain ⟨c, cs, rfl⟩ := List.exists_cons_of_ne_nil hp.base_pos
    have h0 : e 0 = c := by
      have h0 := congrArg (·[0]?) hraw
      simpa [raw11, pad] using h0
    have hc := ne_of_validChar (hp.base_ok c (List.mem_cons_self ..))
    refine ⟨h0 ▸ hc.2.2.2, fun hdel => h5 ?_, hattr⟩
    rw [← hdel, h0]
    exact List.mem_cons_self ..
  have hname := entryName_valid hlive hp hraw
  constructor
  · intro h hdot
    obtain ⟨nm, hnm, hmatch, -⟩ := h
    obtain rfl : render base ext = nm := Option.some.inj (hname.symm.trans hnm)
    have hup := nameMatch_iff.mp hmatch
    refine render_last hp ?_
    rw [hup, List.getLast?_map, hdot, Option.map_some, upper_dot]
  · intro hdot
    have hup := leaf_render hp hleaf hdot
    have hmatch : nameMatch (render base ext) leaf = true := nameMatch_iff.mpr hup.symm
    refine ⟨render base ext, hname, hmatch, fun x hx => ?_, ?_⟩
    · rw [← to83_upper, ← nameMatch_iff.mp hx, ← hup, to83_upper, h]
    · intro s o l p size hs hgo
      rw [walkBody, hs, hname, if_neg hlive.1]
      dsimp only
      rw [hmatch, hgo]
      cases entIsDir e with
      | true => rfl
      | false => rfl

/-- An entry with the given name bytes and nothing else in it. -/
def bareEntry (name83 : Str) (attr : UInt8) : Nat → UInt8 :=
  entryAt (fillEntry (fun _ => 0) 0 name83 attr 0 0) 0

/-- `f.c` and the entry `F.C`. -/
theorem names_agree_file : ∃ nm, entryName (bareEntry (pad 8 [70] ++ pad 3 [67]) 0x20) = some nm ∧
    nameMatch nm [102, dot, 99] = true := by
  have hto : to83 [102, dot, 99] = some (pad 8 [70] ++ pad 3 [67]) := by decide
  obtain ⟨nm, hname, hmatch, -⟩ := (names_agree (e := bareEntry _ 0x20) hto
    (fillEntry_raw11 (by decide)) (by decide)).mpr (by decide)
  exact ⟨nm, hname, hmatch⟩

/-- **A dot at the end** is dropped on one side only: `F.`. -/
theorem trailing_dot : ¬ ∀ leaf name83 e, to83 leaf = some name83 → raw11 e = name83 →
    e 11 &&& attrLfn ≠ attrLfn ∧ e 11 &&& attrVol = 0 →
    ∃ nm, entryName e = some nm ∧ nameMatch nm leaf = true := by
  intro h
  obtain ⟨nm, hname, hmatch⟩ := h [70, dot] (letter 70) (bareEntry (letter 70) 0x20) (by decide)
    (fillEntry_raw11 (by decide)) (by decide)
  have hshown : entryName (bareEntry (letter 70) 0x20) = some [70] := by decide
  obtain rfl : [70] = nm := Option.some.inj (hshown.symm.trans hname)
  exact absurd hmatch (by decide)

end InaneOS.Fat
