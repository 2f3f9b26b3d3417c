import InaneOS.User.KeoFile

/-!
# The clean flag

Every place in `keo.c` that changes the text sets `dirty`, and only `load` and a save
that `sys_fwrite` answered with 0 clear it. `Marked` says so of one function: the flag
is set afterwards, or flag and text are as before. `kept` follows what is known to be in
the file, the lines `load` made and after that those of the last save that returned 0,
and `keo_clean` says that a clear flag means these are the lines in the buffer.
-/

namespace InaneOS.User

open InaneOS.Lib

/-- The text of the buffer. -/
def Keo.lines (k : Keo) : List (List UInt8) := k.text.rows k.nlines

/-- The state in a `Next`. -/
def Next.keo : Next → Keo
  | .go k => k
  | .exited k => k

/-- The text and the flag are the same. -/
structure Same (k k' : Keo) : Prop where
  text : k'.text = k.text
  nlines : k'.nlines = k.nlines
  dirty : k'.dirty = k.dirty

theorem Same.refl (k : Keo) : Same k k := ⟨rfl, rfl, rfl⟩

theorem Same.trans {k k' k'' : Keo} (h : Same k k') (h' : Same k' k'') : Same k k'' :=
  ⟨h'.text.trans h.text, h'.nlines.trans h.nlines, h'.dirty.trans h.dirty⟩

theorem Same.lines {k k' : Keo} (h : Same k k') : k'.lines = k.lines := by
  rw [Keo.lines, Keo.lines, h.text, h.nlines]

theorem Same.ite {c : Prop} [Decidable c] {k a b : Keo} (ha : Same k a) (hb : Same k b) :
    Same k (if c then a else b) := by
  split
  · exact ha
  · exact hb

/-- The flag is set, or nothing is changed. -/
def Marked (k k' : Keo) : Prop := k'.dirty = true ∨ Same k k'

theorem Marked.trans {k k' k'' : Keo} (h : Marked k k') (h' : Marked k' k'') : Marked k k'' := by
  rcases h' with hset | hsame
  · exact Or.inl hset
  · rcases h with hset | hold
    · exact Or.inl (hsame.dirty.trans hset)
    · exact Or.inr (hold.trans hsame)

theorem setMsg_same {s : List UInt8} {k k' : Keo} (h : setMsg s k = some k') : Same k k' := by
  obtain ⟨msg, rfl⟩ := setMsg_eq h
  exact ⟨rfl, rfl, rfl⟩

theorem Edited.marked {k k' : Keo} (h : Edited k k') : Marked k k' := by
  cases h with
  | changed => exact Or.inl rfl
  | kept => exact Or.inr ⟨rfl, rfl, rfl⟩

/-! ## The keys -/

section Keys

variable {c : Int} {k k' : Keo}

theorem Moved.same (h : Moved k k') : Same k k' := by
  obtain ⟨cx, cy, mode, pendD, pendG, rfl⟩ := h
  exact ⟨rfl, rfl, rfl⟩

theorem normalChain_marked {done : Bool} (h : normalChain c k = some (done, k')) : Marked k k' := by
  have hcases := normalChain_cases c k
  rw [h] at hcases
  generalize hres : some (done, k') = res at hcases
  cases hcases with
  | move hm =>
    cases hres
    exact Or.inr hm.same
  | look hm =>
    obtain ⟨m, -, hres⟩ := Option.bind_eq_some_iff.mp hres.symm
    cases hres
    exact Or.inr (hm m).same
  | newLine below =>
    obtain ⟨k₁, hrun, hres⟩ := Option.bind_eq_some_iff.mp hres.symm
    cases hres
    exact (openLine_edited hrun).marked
  | delChar =>
    obtain ⟨k₁, hrun, hres⟩ := Option.bind_eq_some_iff.mp hres.symm
    cases hres
    exact (delChar_edited hrun).marked
  | delLine =>
    obtain ⟨k₁, hrun, hres⟩ := Option.bind_eq_some_iff.mp hres.symm
    cases hres
    exact (delLine_edited hrun).marked.trans (Or.inr ⟨rfl, rfl, rfl⟩)
  | colon =>
    obtain ⟨cmd, -, hres⟩ := Option.bind_eq_some_iff.mp hres.symm
    cases hres
    exact Or.inr ⟨rfl, rfl, rfl⟩

theorem normalKey_marked (h : normalKey c k = some k') : Marked k k' := by
  obtain ⟨⟨done, k₁⟩, hrun, h⟩ := Option.bind_eq_some_iff.mp h
  cases h
  have hforget : Same k₁ (if done then k₁ else forget c k₁) :=
    .ite (Same.refl k₁) (forget_moved c k₁).same
  exact (normalChain_marked hrun).trans (Or.inr hforget)

theorem insertKey_marked (h : insertKey c k = some k') : Marked k k' := by
  rcases insertKey_cases h with ⟨-, hkey⟩ | ⟨-, hedit⟩
  · exact normalKey_marked hkey
  · exact hedit.marked

theorem draw_same {out : List Paint} (h : draw k = some (k', out)) : Same k k' := by
  obtain ⟨cx, cy, top, rfl⟩ := draw_eq h
  exact ⟨rfl, rfl, rfl⟩

theorem drawNext_same {next next' : Next} (h : drawNext next = some next') :
    Same next.keo next'.keo := by
  cases next with
  | exited k₁ =>
    cases h
    exact Same.refl k₁
  | go k₁ =>
    obtain ⟨⟨k₂, out⟩, hdraw, h⟩ := Option.bind_eq_some_iff.mp h
    cases h
    exact draw_same hdraw

end Keys

/-! ## Saves -/

/-- The state in which a command calls `save`, for the commands that do. -/
def saveCmd (k : Keo) : Option Keo :=
  if sameFrom k.cmd 0 [119] = some true then some k
  else if isRename k = some true then
    (nameLoop k.cmd 127 0 k.fname).map fun p => { k with fname := put p.2 p.1 0 }
  else if sameFrom k.cmd 0 [119, 113] = some true then some k
  else none

/-- The state in which a key calls `save`, if it does. -/
def saveCall (c : Int) (k : Keo) : Option Keo :=
  if k.mode = .cmd ∧ c = 10 then saveCmd { k with mode := .normal, msg := put k.msg 0 0 } else none

/-- The lines that are in the file after a key, if `base` were in it before: those handed to
a save that returned 0. -/
def kept (c r : Int) (k : Keo) (base : List (List UInt8)) : List (List UInt8) :=
  match saveCall c k with
  | none => base
  | some k' =>
    match save r k' with
    | none => base
    | some (ret, _, _) => if ret = 0 then k'.lines else base

/-- The lines that are in the file after a run. -/
def keptRun : List (Int × Int) → Next → List (List UInt8) → List (List UInt8)
  | [], _, base => base
  | _, .exited _, base => base
  | (c, r) :: keys, .go k, base =>
    match keyStep c r k with
    | none => base
    | some next => keptRun keys next (kept c r k base)

section Commands

variable {r : Int} {k : Keo} {next : Next}

theorem sameFrom_head {cmd : Int → UInt8} {b : UInt8} {bs : List UInt8}
    (h : sameFrom cmd 0 (b :: bs) = some true) : cmd 0 = b := by
  rw [sameFrom, bind_of_eq (getAt_eq (by omega) (by omega))] at h
  split at h
  · next hc => exact hc.2
  · simpa using h

/-- A command calls `save` where `saveCmd` says so, and otherwise leaves text and flag. -/
theorem execCmd_cases (h : execCmd r k = some next) :
    (∃ k', saveCmd k = some k' ∧ Same k k' ∧ doSave r k' = some next) ∨
    saveCmd k = none ∧ Same k next.keo := by
  unfold execCmd at h
  unfold saveCmd
  obtain ⟨isW, hw, h⟩ := Option.bind_eq_some_iff.mp h
  rw [hw]
  cases isW with
  | true =>
    rw [if_pos rfl] at h
    exact Or.inl ⟨k, if_pos rfl, Same.refl k, h⟩
  | false =>
    rw [if_neg (by decide)] at h
    rw [if_neg (by decide)]
    obtain ⟨rename, hren, h⟩ := Option.bind_eq_some_iff.mp h
    rw [hren]
    cases rename with
    | true =>
      rw [if_pos rfl] at h
      obtain ⟨⟨i, fname⟩, hname, h⟩ := Option.bind_eq_some_iff.mp h
      obtain ⟨fname', hset, h⟩ := Option.bind_eq_some_iff.mp h
      have hput : fname' = put fname i 0 := by
        unfold setAt at hset
        split at hset
        · exact (Option.some.inj hset).symm
        · exact absurd hset (by simp)
      rw [if_pos rfl, hname, Option.map_some, ← hput]
      exact Or.inl ⟨_, rfl, ⟨rfl, rfl, rfl⟩, h⟩
    | false =>
      rw [if_neg (by decide)] at h
      rw [if_neg (by decide)]
      obtain ⟨isQ, hq, h⟩ := Option.bind_eq_some_iff.mp h
      -- only a command that starts with `w` saves
      have hnone : ∀ bs, sameFrom k.cmd 0 (113 :: bs) = some true →
          (if sameFrom k.cmd 0 [119, 113] = some true then some k else none) = none :=
            fun bs hbs => by
        refine if_neg fun hwq => ?_
        have h1 := sameFrom_head hbs
        rw [sameFrom_head hwq] at h1
        exact absurd h1 (by decide)
      cases isQ with
      | true =>
        rw [if_pos rfl] at h
        refine Or.inr ⟨hnone [] hq, ?_⟩
        split at h
        · obtain ⟨k', hmsg, rfl⟩ := Option.map_eq_some_iff.mp h
          exact setMsg_same hmsg
        · cases h
          exact Same.refl k
      | false =>
        rw [if_neg (by decide)] at h
        obtain ⟨isQuit, hquit, h⟩ := Option.bind_eq_some_iff.mp h
        cases isQuit with
        | true =>
          cases h
          exact Or.inr ⟨hnone [33] hquit, Same.refl k⟩
        | false =>
          rw [if_neg (by decide)] at h
          obtain ⟨isWq, hwq, h⟩ := Option.bind_eq_some_iff.mp h
          rw [hwq]
          cases isWq with
          | true => exact Or.inl ⟨k, if_pos rfl, Same.refl k, h⟩
          | false =>
            rw [if_neg (by decide)] at h
            obtain ⟨k', hmsg, rfl⟩ := Option.map_eq_some_iff.mp h
            exact Or.inr ⟨if_neg (by decide), setMsg_same hmsg⟩

/-- `:q` ends the editor only with the flag clear. -/
theorem execCmd_quit (hq : sameFrom k.cmd 0 [113] = some true) {k' : Keo}
    (h : execCmd r k = some (.exited k')) : k' = k ∧ k.dirty = false := by
  have hcmd := sameFrom_head hq
  unfold execCmd at h
  obtain ⟨isW, hw, h⟩ := Option.bind_eq_some_iff.mp h
  cases isW with
  | true =>
    rw [sameFrom_head hw] at hcmd
    exact absurd hcmd (by decide)
  | false =>
    rw [if_neg (by decide)] at h
    have hren : isRename k = some false := by
      unfold isRename
      rw [bind_of_eq (getAt_eq (by omega) (by omega)), hcmd]
      rfl
    rw [bind_of_eq hren, if_neg (by decide), bind_of_eq hq, if_pos rfl] at h
    split at h
    · obtain ⟨k₁, -, hk⟩ := Option.map_eq_some_iff.mp h
      cases hk
    · next hd =>
      cases h
      exact ⟨rfl, by simpa using hd⟩

/-- A save clears the flag only if it returns 0, and then the editor ends. -/
theorem doSave_cases (h : doSave r k = some next) : ∃ ret k' out, save r k = some (ret, k', out) ∧
    (ret = 0 ∧ next = .exited k' ∧ k'.lines = k.lines ∨ ret ≠ 0 ∧ Same k next.keo) := by
  obtain ⟨⟨ret, k', out⟩, hs, h⟩ := Option.bind_eq_some_iff.mp h
  refine ⟨ret, k', out, hs, ?_⟩
  -- what `save` does to text and flag
  have hsave : k'.text = k.text ∧ k'.nlines = k.nlines ∧ (ret ≠ 0 → k'.dirty = k.dirty) := by
    unfold save at hs
    obtain ⟨c, -, hs⟩ := Option.bind_eq_some_iff.mp hs
    split at hs
    · cases hs
      exact ⟨rfl, rfl, fun _ => rfl⟩
    · obtain ⟨b, -, hs⟩ := Option.bind_eq_some_iff.mp hs
      split at hs
      · cases hs
        exact ⟨rfl, rfl, fun _ => rfl⟩
      · simp only [Option.some.injEq, Prod.mk.injEq] at hs
        obtain ⟨hret, rfl, -⟩ := hs
        split
        · next hr =>
          refine ⟨rfl, rfl, fun hne => absurd ?_ hne⟩
          rw [← hret, hr]
          decide
        · exact ⟨rfl, rfl, fun _ => rfl⟩
  obtain ⟨htext, hnlines, hdirty⟩ := hsave
  dsimp only at h
  split at h
  · next hret =>
    cases h
    exact Or.inl ⟨hret, rfl, by rw [Keo.lines, Keo.lines, htext, hnlines]⟩
  · next hret =>
    obtain ⟨k₁, hmsg, rfl⟩ := Option.map_eq_some_iff.mp h
    have hsame := setMsg_same hmsg
    exact Or.inr ⟨hret, hsame.text.trans htext, hsame.nlines.trans hnlines,
      hsame.dirty.trans (hdirty hret)⟩

end Commands

/-! ## Runs -/

/-- A clear flag means that these are the lines. -/
def Clean (base : List (List UInt8)) (k : Keo) : Prop := k.dirty = false → k.lines = base

theorem Clean.marked {base : List (List UInt8)} {k k' : Keo} (h : Clean base k) (hm : Marked k k') :
    Clean base k' := by
  intro hd
  rcases hm with hset | hsame
  · rw [hset] at hd
    exact absurd hd (by decide)
  · rw [hsame.lines]
    exact h (hsame.dirty.symm.trans hd)

/-- The handler of a key keeps the meaning of the flag. -/
theorem dispatch_clean {c r : Int} {k : Keo} {next : Next} {base : List (List UInt8)}
    (h : Clean base k)
    (hrun : dispatch c r { k with msg := put k.msg 0 0 } = some next) :
    Clean (kept c r k base) next.keo := by
  have hmsg : Marked k { k with msg := put k.msg 0 0 } := Or.inr ⟨rfl, rfl, rfl⟩
  -- without a save the lines in the file are those before
  have hplain : saveCall c k = none → Marked k next.keo → Clean (kept c r k base) next.keo := by
    intro hnone hm
    rw [kept, hnone]
    exact h.marked hm
  unfold dispatch at hrun
  split at hrun
  · next hmode =>
    have hmode : k.mode = .normal := hmode
    obtain ⟨k', hkey, rfl⟩ := Option.map_eq_some_iff.mp hrun
    exact hplain (if_neg fun hc => by rw [hmode] at hc; exact absurd hc.1 (by decide))
      (hmsg.trans (normalKey_marked hkey))
  · next hmode =>
    have hmode : k.mode = .insert := hmode
    obtain ⟨k', hkey, rfl⟩ := Option.map_eq_some_iff.mp hrun
    exact hplain (if_neg fun hc => by rw [hmode] at hc; exact absurd hc.1 (by decide))
      (hmsg.trans (insertKey_marked hkey))
  · next hmode =>
    have hmode : k.mode = .cmd := hmode
    unfold cmdKey at hrun
    refine of_ite hrun (fun hc hrun => ?_) fun hc hrun => ?_
    · cases hrun
      exact hplain (if_neg fun hcall => absurd (hc.symm.trans hcall.2) (by decide))
        (Or.inr ⟨rfl, rfl, rfl⟩)
    refine of_ite hrun (fun hc hrun => ?_) fun hc hrun => ?_
    · have hcall : saveCall c k = saveCmd { k with mode := .normal, msg := put k.msg 0 0 } :=
        if_pos ⟨hmode, hc⟩
      rcases execCmd_cases hrun with ⟨k', hcmd, hsame, hsave⟩ | ⟨hnone, hsame⟩
      · obtain ⟨ret, k₁, out, hs, hcases⟩ := doSave_cases hsave
        rw [kept, hcall, hcmd]
        dsimp only
        rw [hs]
        dsimp only
        rcases hcases with ⟨hret, rfl, hlines⟩ | ⟨hret, hkeep⟩
        · rw [if_pos hret]
          exact fun _ => hlines
        · rw [if_neg hret]
          have hall : Same k next.keo := Same.trans ⟨hsame.text, hsame.nlines, hsame.dirty⟩ hkeep
          exact h.marked (Or.inr hall)
      · exact hplain (hcall.trans hnone) (Or.inr ⟨hsame.text, hsame.nlines, hsame.dirty⟩)
    -- the other keys only change the command
    have hnone : saveCall c k = none := if_neg fun hcall => hc hcall.2
    refine of_ite hrun (fun hc hrun => ?_) fun hc hrun => ?_
    · refine of_ite hrun (fun _ hrun => ?_) fun _ hrun => ?_
      · obtain ⟨cmd, -, hrun⟩ := Option.bind_eq_some_iff.mp hrun
        cases hrun
        exact hplain hnone (Or.inr ⟨rfl, rfl, rfl⟩)
      · cases hrun
        exact hplain hnone (Or.inr ⟨rfl, rfl, rfl⟩)
    refine of_ite hrun (fun _ hrun => ?_) fun _ hrun => ?_
    · obtain ⟨cmd, -, hrun⟩ := Option.bind_eq_some_iff.mp hrun
      obtain ⟨cmd', -, hrun⟩ := Option.bind_eq_some_iff.mp hrun
      cases hrun
      exact hplain hnone (Or.inr ⟨rfl, rfl, rfl⟩)
    · cases hrun
      exact hplain hnone (Or.inr ⟨rfl, rfl, rfl⟩)

/-- One key. -/
theorem keyStep_clean {c r : Int} {k : Keo} {next : Next} {base : List (List UInt8)}
    (h : Clean base k)
    (hrun : keyStep c r k = some next) : Clean (kept c r k base) next.keo := by
  unfold keyStep at hrun
  rw [bind_of_eq (setAt_eq (by omega) (by omega))] at hrun
  obtain ⟨next', hdisp, hdraw⟩ := Option.bind_eq_some_iff.mp hrun
  exact (dispatch_clean h hdisp).marked (Or.inr (drawNext_same hdraw))

/-- Any number of keys. -/
theorem keyRun_clean : ∀ (keys : List (Int × Int)) {next next' : Next} {base : List (List UInt8)},
    Clean base next.keo → keyRun keys next = some next' → Clean (keptRun keys next base) next'.keo
  | [], next, next', base, h, hrun => by
    rw [keyRun] at hrun
    cases hrun
    rw [keptRun]
    exact h
  | (c, r) :: keys, .exited k, next', base, h, hrun => by
    cases hrun
    exact h
  | (c, r) :: keys, .go k, next', base, h, hrun => by
    rw [keyRun] at hrun
    obtain ⟨next₁, hstep, hrest⟩ := Option.bind_eq_some_iff.mp hrun
    rw [keptRun, hstep]
    exact keyRun_clean keys (keyStep_clean h hstep) hrest

/-- **A clear flag means an unchanged buffer.** After any keys, for any file and any answers
of `sys_fwrite`, the lines in the buffer are those that `load` made of the file or, after
that, those handed to the last save that returned 0, whenever the flag is clear; and the
command `q` ends the editor only then. -/
theorem keo_clean {arg : List UInt8} {file : Option (List UInt8)} {k₀ : Keo}
    (hopen : opened arg file = some (.go k₀)) {keys : List (Int × Int)} {next : Next}
    (hrun : keyRun keys (.go k₀) = some next) :
    (next.keo.dirty = false → next.keo.lines = keptRun keys (.go k₀) (loaded (file.getD []))) ∧
    ∀ k r k', next = .go k → k.mode = .cmd → sameFrom k.cmd 0 [113] = some true →
      keyStep 10 r k = some (.exited k') →
      k'.dirty = false ∧ k'.lines = keptRun keys (.go k₀) (loaded (file.getD [])) := by
  have hstart : Clean (loaded (file.getD [])) k₀ := by
    intro _
    unfold opened at hopen
    split at hopen
    · cases hopen
    · obtain ⟨⟨i, fname⟩, -, hopen⟩ := Option.bind_eq_some_iff.mp hopen
      obtain ⟨fname', -, hopen⟩ := Option.bind_eq_some_iff.mp hopen
      obtain ⟨k₁, hload, hdraw⟩ := Option.bind_eq_some_iff.mp hopen
      have hsame : Same k₁ k₀ := drawNext_same hdraw
      rw [hsame.lines]
      exact (load_savable hload).2
  have hclean := keyRun_clean keys hstart hrun
  refine ⟨hclean, ?_⟩
  intro k r k' he hmode hq hquit
  subst he
  unfold keyStep at hquit
  rw [bind_of_eq (setAt_eq (by omega) (by omega))] at hquit
  obtain ⟨next', hdisp, hdraw⟩ := Option.bind_eq_some_iff.mp hquit
  -- the editor ends in the command, not in `draw`
  cases next' with
  | go k₁ =>
    obtain ⟨⟨k₂, out⟩, -, hdraw⟩ := Option.bind_eq_some_iff.mp hdraw
    cases hdraw
  | exited k₁ =>
    obtain rfl := Next.exited.inj (Option.some.inj hdraw)
    have hcmd : dispatch 10 r { k with msg := put k.msg 0 0 }
        = execCmd r { k with mode := .normal, msg := put k.msg 0 0 } := by
      unfold dispatch
      rw [hmode]
      rfl
    rw [hcmd] at hdisp
    obtain ⟨rfl, hd⟩ := execCmd_quit (k := { k with mode := .normal, msg := put k.msg 0 0 })
      hq hdisp
    exact ⟨hd, hclean hd⟩

/-- A file of one line on a read-only volume: `:w` fails, and the line is still the one loaded. -/
theorem keo_clean_readonly : ∃ k₀ next, opened [97] (some [120, 10]) = some (.go k₀) ∧
    keyRun [(58, 0), (119, 0), (10, fsRo)] (.go k₀) = some next ∧ next.keo.dirty = false ∧
    next.keo.lines = [[120]] := by
  have hopen : (opened [97] (some [120, 10])).map
    (fun n => match n with | .go _ => true | .exited _ => false) =
      some true := by decide +kernel
  have hrun : (opened [97] (some [120, 10])).map (fun n =>
      ((keyRun [(58, 0), (119, 0), (10, fsRo)] n).map (fun n' => n'.keo.dirty),
        keptRun [(58, 0), (119, 0), (10, fsRo)] n (loaded [120, 10]))) =
          some (some false, [[120]]) := by
    decide +kernel
  obtain ⟨n, hn, hgo⟩ := Option.map_eq_some_iff.mp hopen
  cases n with
  | exited k => exact absurd hgo Bool.false_ne_true
  | go k₀ =>
    rw [hn, Option.map_some] at hrun
    obtain ⟨hdirty, hkept⟩ := Prod.mk.inj (Option.some.inj hrun)
    obtain ⟨next, hkeys, hd⟩ := Option.map_eq_some_iff.mp hdirty
    refine ⟨k₀, next, hn, hkeys, hd, ?_⟩
    rw [(keo_clean hn hkeys).1 hd]
    exact hkept

end InaneOS.User
