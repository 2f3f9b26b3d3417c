import InaneOS.User.KeoClean

/-!
# Commands of two keys

`dd` deletes a line and `gg` jumps to the first one. `normal_key` keeps a flag for each of
the two letters and clears both at its end, but the first letter of a pair returns before
that. So a `d` does not take back the `g` that waits, nor a `g` the `d`: with both flags
set the next letter of either kind counts as the second of its pair.

`normalCalls` is the chain of tests with the command that is carried out. `twoKeys_iff`
says in which sequences of keys every command stands after its own letter, typed twice.
-/

namespace InaneOS.User

open InaneOS.Lib

/-- `del_line()`, or `cy = 0` for the second `g`. -/
inductive Command
  | delLine
  | jump
  deriving DecidableEq

/-- `normalChain` and which of the two commands it carries out. -/
def normalCalls (c : Int) (k : Keo) : Option (Option Command × Bool × Keo) :=
  if c = 104 ∨ c = keyLeft then
    some (none, false, if k.cx > 0 then { k with cx := k.cx - 1 } else k)
  else if c = 108 ∨ c = keyRight then do
    let m ← k.text.len k.cy
    some (none, false, if k.cx < m then { k with cx := k.cx + 1 } else k)
  else if c = 106 ∨ c = keyDown then
    some (none, false, if k.cy < k.nlines - 1 then { k with cy := k.cy + 1 } else k)
  else if c = 107 ∨ c = keyUp then
    some (none, false, if k.cy > 0 then { k with cy := k.cy - 1 } else k)
  else if c = 105 then some (none, false, { k with mode := .insert })
  else if c = 97 then do
    let m ← k.text.len k.cy
    some (none, false,
      { (if k.cx < m then { k with cx := k.cx + 1 } else k) with mode := .insert })
  else if c = 65 then do
    let m ← k.text.len k.cy
    some (none, false, { k with cx := m, mode := .insert })
  else if c = 111 then do
    let k ← openLine true k
    some (none, false, k)
  else if c = 79 then do
    let k ← openLine false k
    some (none, false, k)
  else if c = 120 ∨ c = keyDel then do
    let k ← delChar k
    some (none, false, k)
  else if c = 100 then
    -- both letters return here, before the flags are cleared
    if k.pendD then do
      let k ← delLine k
      some (some .delLine, false, { k with pendD := false })
    else some (none, true, { k with pendD := true })
  else if c = 103 then
    if k.pendG then some (some .jump, false, { k with cy := 0, pendG := false })
    else some (none, true, { k with pendG := true })
  else if c = 71 then some (none, false, { k with cy := k.nlines - 1 })
  else if c = 48 then some (none, false, { k with cx := 0 })
  else if c = 36 then do
    let m ← k.text.len k.cy
    some (none, false, { k with cx := if m ≠ 0 then m - 1 else 0 })
  else if c = 58 then do
    let cmd ← setAt 128 k.cmd 0 0
    some (none, false, { k with mode := .cmd, cmdlen := 0, cmd := cmd })
  else some (none, false, k)

/-- Nothing else is different. -/
theorem normalCalls_chain (c : Int) (k : Keo) :
    normalChain c k = (normalCalls c k).map Prod.snd := by
  unfold normalCalls normalChain
  simp only [apply_ite (Option.map Prod.snd), Option.map_some, Option.bind_eq_bind, Option.map_bind,
    Function.comp_def]

/-! ## One key -/

/-- The command `c` carries out when `d` and `g` are the flags. -/
def command (c : Int) (d g : Bool) : Option Command :=
  if c = 100 ∧ d = true then some .delLine
  else if c = 103 ∧ g = true then some .jump
  else none

/-- The flags after `c`. -/
def pending (c : Int) (d g : Bool) : Bool × Bool :=
  if c = 100 then (!d, !d && g)
  else if c = 103 then (!g && d, !g)
  else (false, false)

/-- No command, and the end of `normal_key` is reached. -/
def Quiet (x : Option (Option Command × Bool × Keo)) : Prop :=
  ∀ r, x = some r → r.1 = none ∧ r.2.1 = false

theorem quiet_some (k : Keo) : Quiet (some (none, false, k)) := by
  intro r hr
  obtain rfl := Option.some.inj hr
  exact ⟨rfl, rfl⟩

theorem quiet_bind {α : Type} (x : Option α) (f : α → Keo) :
    Quiet (x >>= fun a => some (none, false, f a)) := by
  cases x with
  | none => exact fun r hr => absurd hr (by simp)
  | some a => exact quiet_some (f a)

/-- Every key but the two letters clears both flags. -/
theorem normalCalls_other {c : Int} (hd : c ≠ 100) (hg : c ≠ 103) (k : Keo) :
    Quiet (normalCalls c k) := by
  unfold normalCalls
  refine iteInduction (fun _ => quiet_some _) fun _ => ?_
  refine iteInduction (fun _ => quiet_bind _ _) fun _ => ?_
  refine iteInduction (fun _ => quiet_some _) fun _ => ?_
  refine iteInduction (fun _ => quiet_some _) fun _ => ?_
  refine iteInduction (fun _ => quiet_some _) fun _ => ?_
  refine iteInduction (fun _ => quiet_bind _ _) fun _ => ?_
  refine iteInduction (fun _ => quiet_bind _ _) fun _ => ?_
  refine iteInduction (fun _ => quiet_bind _ _) fun _ => ?_
  refine iteInduction (fun _ => quiet_bind _ _) fun _ => ?_
  refine iteInduction (fun _ => quiet_bind _ _) fun _ => ?_
  rw [if_neg hd, if_neg hg]
  refine iteInduction (fun _ => quiet_some _) fun _ => ?_
  refine iteInduction (fun _ => quiet_some _) fun _ => ?_
  refine iteInduction (fun _ => quiet_bind _ _) fun _ => ?_
  exact iteInduction (fun _ => quiet_bind _ _) fun _ => quiet_some _

theorem normalCalls_d (k : Keo) : normalCalls 100 k =
    if k.pendD then (delLine k).bind fun k => some (some .delLine, false, { k with pendD := false })
    else some (none, true, { k with pendD := true }) := by
  unfold normalCalls
  rw [if_neg (by decide), if_neg (by decide), if_neg (by decide), if_neg (by decide),
    if_neg (by decide), if_neg (by decide), if_neg (by decide), if_neg (by decide),
    if_neg (by decide), if_neg (by decide), if_pos rfl]
  rfl

theorem normalCalls_g (k : Keo) : normalCalls 103 k =
    if k.pendG then some (some .jump, false, { k with cy := 0, pendG := false })
    else some (none, true, { k with pendG := true }) := by
  unfold normalCalls
  rw [if_neg (by decide), if_neg (by decide), if_neg (by decide), if_neg (by decide),
    if_neg (by decide), if_neg (by decide), if_neg (by decide), if_neg (by decide),
    if_neg (by decide), if_neg (by decide), if_neg (by decide), if_pos rfl]

/-- What a key does depends on the flags alone, and so do the flags after it. -/
theorem normalCalls_flags {c : Int} {k k' : Keo} {cmd : Option Command} {done : Bool}
    (h : normalCalls c k = some (cmd, done, k')) :
    cmd = command c k.pendD k.pendG ∧
      ((if done then k' else forget c k').pendD, (if done then k' else forget c k').pendG) =
        pending c k.pendD k.pendG := by
  by_cases hd : c = 100
  · subst hd
    rw [normalCalls_d] at h
    cases hp : k.pendD with
    | true =>
      rw [hp, if_pos rfl] at h
      obtain ⟨k₁, -, hr⟩ := Option.bind_eq_some_iff.mp h
      obtain ⟨rfl, rfl, rfl⟩ : some .delLine = cmd ∧ false = done ∧
          { k₁ with pendD := false } = k' := by simpa using hr
      exact ⟨rfl, rfl⟩
    | false =>
      rw [hp, if_neg (by decide)] at h
      obtain ⟨rfl, rfl, rfl⟩ : none = cmd ∧ true = done ∧ { k with pendD := true } = k' := by
        simpa using h
      exact ⟨rfl, rfl⟩
  · by_cases hg : c = 103
    · subst hg
      rw [normalCalls_g] at h
      cases hp : k.pendG with
      | true =>
        rw [hp, if_pos rfl] at h
        obtain ⟨rfl, rfl, rfl⟩ : some .jump = cmd ∧ false = done ∧
            { k with cy := 0, pendG := false } = k' := by simpa using h
        exact ⟨rfl, rfl⟩
      | false =>
        rw [hp, if_neg (by decide)] at h
        obtain ⟨rfl, rfl, rfl⟩ : none = cmd ∧ true = done ∧ { k with pendG := true } = k' := by
          simpa using h
        exact ⟨rfl, rfl⟩
    · obtain ⟨hcmd, hdone⟩ := normalCalls_other hd hg k _ h
      dsimp only at hcmd hdone
      subst hcmd hdone
      refine ⟨by simp [command, hd, hg], ?_⟩
      simp only [forget, pending, if_neg hd, if_neg hg, Bool.false_eq_true, if_false]

/-! ## A sequence of keys -/

/-- The calls of `normal_key` from `k` on, each with its key and the command it carried out.
Between two calls the editor may change, but not the flags: they are local to `normal_key`. -/
inductive Calls : Keo → List (Int × Option Command) → Prop
  | nil (k : Keo) : Calls k []
  | cons {k j k' : Keo} {c : Int} {cmd : Option Command} {done : Bool}
      {run : List (Int × Option Command)} (hd : j.pendD = k.pendD) (hg : j.pendG = k.pendG)
      (h : normalCalls c j = some (cmd, done, k'))
      (hrun : Calls (if done then k' else forget c k') run) : Calls k ((c, cmd) :: run)

/-- The letter that is typed twice. -/
def Command.letter : Command → Int
  | .delLine => 100
  | .jump => 103

/-- Every command is carried out by its letter, and the key before it was the same letter. -/
def TwoKeys (run : List (Int × Option Command)) : Prop :=
  ∀ before c m after, run = before ++ (c, some m) :: after →
    c = m.letter ∧ before.getLast?.map Prod.fst = some m.letter

def IsLetter (c : Int) : Prop := c = 100 ∨ c = 103

instance : DecidablePred IsLetter := fun c => inferInstanceAs (Decidable (c = 100 ∨ c = 103))

/-- No letter that waits is passed by the other one and typed again. From the left: a letter
is taken together with the key after it, and with the next one as well if that key is the
other letter; then the third key is not the first one. -/
def Unmixed : List Int → Prop
  | c :: b :: a :: cs =>
    if ¬ IsLetter c then Unmixed (b :: a :: cs)
    else if b = c ∨ ¬ IsLetter b then Unmixed (a :: cs)
    else a ≠ c ∧ Unmixed cs
  | _ => True

/-- The calls for the keys `cs` when the flags are `d` and `g`. -/
def callsOf : Bool → Bool → List Int → List (Int × Option Command)
  | _, _, [] => []
  | d, g, c :: cs => (c, command c d g) :: callsOf (pending c d g).1 (pending c d g).2 cs

theorem Calls.eq {k : Keo} {run : List (Int × Option Command)} (h : Calls k run) :
    run = callsOf k.pendD k.pendG (run.map Prod.fst) := by
  induction h with
  | nil k => rfl
  | cons hd hg h hrun ih =>
    obtain ⟨hcmd, hflags⟩ := normalCalls_flags h
    rw [hd, hg] at hcmd hflags
    rw [List.map_cons, callsOf, ← hcmd, ← hflags, ← ih]

/-- `TwoKeys` with `prev` as the key before the run. -/
def TwoKeysFrom : Option Int → List (Int × Option Command) → Prop
  | _, [] => True
  | prev, (c, cmd) :: run =>
    (∀ m, cmd = some m → c = m.letter ∧ prev = some m.letter) ∧ TwoKeysFrom (some c) run

theorem lastKey_cons (call : Int × Option Command) (before : List (Int × Option Command))
    (prev : Option Int) : ((call :: before).getLast?.map Prod.fst).or prev =
      (before.getLast?.map Prod.fst).or (some call.1) := by
  rw [List.getLast?_cons, Option.map_some]
  cases before.getLast? with
  | none => rfl
  | some x => rfl

theorem twoKeysFrom_iff (run : List (Int × Option Command)) : ∀ prev : Option Int,
    TwoKeysFrom prev run ↔ ∀ before c m after, run = before ++ (c, some m) :: after →
      c = m.letter ∧ (before.getLast?.map Prod.fst).or prev = some m.letter := by
  induction run with
  | nil => exact fun prev => iff_of_true trivial fun before c m after h => by simp at h
  | cons call run ih =>
    intro prev
    obtain ⟨c, cmd⟩ := call
    rw [TwoKeysFrom, ih]
    constructor
    · intro h before c' m after heq
      cases before with
      | nil =>
        obtain ⟨⟨rfl, rfl⟩, rfl⟩ : (c = c' ∧ cmd = some m) ∧ run = after := by simpa using heq
        exact h.1 m rfl
      | cons first before =>
        obtain ⟨rfl, rfl⟩ := List.cons.inj heq
        obtain ⟨hc, hlast⟩ := h.2 before c' m after rfl
        rw [lastKey_cons]
        exact ⟨hc, hlast⟩
    · intro h
      refine ⟨fun m hm => ?_, fun before c' m after heq => ?_⟩
      · subst hm
        exact h [] c m run rfl
      · subst heq
        obtain ⟨hc, hlast⟩ := h ((c, cmd) :: before) c' m after rfl
        rw [lastKey_cons] at hlast
        exact ⟨hc, hlast⟩

theorem command_other {c : Int} (hc : ¬ IsLetter c) (d g : Bool) :
    command c d g = none ∧ pending c d g = (false, false) := by
  have hd : c ≠ 100 := fun h => hc (Or.inl h)
  have hg : c ≠ 103 := fun h => hc (Or.inr h)
  exact ⟨by simp [command, hd, hg], by rw [pending, if_neg hd, if_neg hg]⟩

theorem isLetter_iff {c : Int} : IsLetter c ↔ ∃ m : Command, m.letter = c := by
  constructor
  · intro h
    rcases h with rfl | rfl
    · exact ⟨.delLine, rfl⟩
    · exact ⟨.jump, rfl⟩
  · intro h
    obtain ⟨m, rfl⟩ := h
    cases m with
    | delLine => exact Or.inl rfl
    | jump => exact Or.inr rfl

theorem letter_inj {m m' : Command} (h : m.letter = m'.letter) : m = m' := by
  cases m <;> cases m' <;> first | rfl | exact absurd h (by decide)

/-- With both flags set, the letter that comes gets its command. -/
theorem command_letter (m : Command) : command m.letter true true = some m := by
  cases m with
  | delLine => rfl
  | jump => rfl

theorem command_clear (c : Int) : command c false false = none := by simp [command]

/-- One letter waits: the command that comes next is its own. -/
theorem command_second {b c : Int} {m : Command}
    (h : command b (pending c false false).1 (pending c false false).2 = some m) :
    b = m.letter ∧ c = m.letter := by
  by_cases hc : IsLetter c
  · obtain ⟨x, rfl⟩ := isLetter_iff.mp hc
    by_cases hb : IsLetter b
    · obtain ⟨y, rfl⟩ := isLetter_iff.mp hb
      cases x <;> cases y <;> cases m <;> first | exact ⟨rfl, rfl⟩ | exact absurd h (by decide)
    · rw [(command_other hb _ _).1] at h
      exact absurd h (by simp)
  · rw [(command_other hc false false).2, command_clear] at h
    exact absurd h (by simp)

theorem pending_both (a : Int) : pending a true true = (false, false) := by
  unfold pending
  split
  · rfl
  · split <;> rfl

theorem callsOf_twice (m : Command) (cs : List Int) :
    callsOf false false (m.letter :: m.letter :: cs) =
      (m.letter, none) :: (m.letter, some m) :: callsOf false false cs := by
  cases m with
  | delLine => rfl
  | jump => rfl

theorem callsOf_dropped {b : Int} (hb : ¬ IsLetter b) (c : Int) (cs : List Int) :
    callsOf false false (c :: b :: cs) = (c, none) :: (b, none) :: callsOf false false cs := by
  obtain ⟨hcmd, hflags⟩ := command_other hb (pending c false false).1 (pending c false false).2
  rw [callsOf, callsOf, hcmd, hflags, command_clear]

theorem callsOf_passed {m m' : Command} (hne : m ≠ m') (cs : List Int) :
    callsOf false false (m.letter :: m'.letter :: cs) =
      (m.letter, none) :: (m'.letter, none) :: callsOf true true cs := by
  cases m with
  | delLine =>
    cases m' with
    | delLine => exact absurd rfl hne
    | jump => rfl
  | jump =>
    cases m' with
    | delLine => rfl
    | jump => exact absurd rfl hne

/-- A command after both letters is right when its letter was the last. -/
theorem command_passed {m m' : Command} (hne : m ≠ m') (a : Int) :
    (∀ x, command a true true = some x → a = x.letter ∧ some m'.letter = some x.letter) ↔
      a ≠ m.letter := by
  by_cases ha : IsLetter a
  · obtain ⟨x, rfl⟩ := isLetter_iff.mp ha
    rw [command_letter]
    constructor
    · intro h hx
      obtain ⟨-, hlast⟩ := h x rfl
      have hm : m' = x := letter_inj (Option.some.inj hlast)
      exact hne ((letter_inj hx).symm.trans hm.symm)
    · intro hx y hy
      obtain rfl := Option.some.inj hy
      refine ⟨rfl, ?_⟩
      -- there are only two letters
      cases m <;> cases m' <;> cases x <;> first | rfl | exact absurd rfl hne | exact absurd rfl hx
  · rw [(command_other ha true true).1]
    refine iff_of_true (fun x hx => absurd hx (by simp)) fun hx => ha ?_
    exact isLetter_iff.mpr ⟨m, hx.symm⟩

/-- From clear flags the key before does not matter. -/
theorem callsOf_iff (keys : List Int) : ∀ prev : Option Int,
    TwoKeysFrom prev (callsOf false false keys) ↔ Unmixed keys := by
  induction keys using Unmixed.induct with
  | case1 c b a cs hc ih =>
    intro prev
    obtain ⟨hcmd, hflags⟩ := command_other hc false false
    rw [Unmixed, if_pos hc, callsOf, hcmd, hflags, TwoKeysFrom, ih]
    exact and_iff_right (fun m hm => absurd hm (by simp))
  | case2 c b a cs hc hb ih =>
    intro prev
    rw [Unmixed, if_neg hc, if_pos hb]
    rcases hb with rfl | hb
    · obtain ⟨m, rfl⟩ := isLetter_iff.mp (not_not.mp hc)
      rw [callsOf_twice]
      simp [TwoKeysFrom, ih]
    · rw [callsOf_dropped hb]
      simp [TwoKeysFrom, ih]
  | case3 c b a cs hc hb ih =>
    intro prev
    rw [Unmixed, if_neg hc, if_neg hb]
    push Not at hb
    obtain ⟨m, rfl⟩ := isLetter_iff.mp (not_not.mp hc)
    obtain ⟨m', rfl⟩ := isLetter_iff.mp hb.2
    have hne : m ≠ m' := fun h => hb.1 (congrArg Command.letter h.symm)
    rw [callsOf_passed hne, callsOf, pending_both]
    simp only [TwoKeysFrom, ih, command_passed hne]
    simp
  | case4 cs hcs =>
    -- two keys are too few to pass a letter and type it again
    intro prev
    rw [Unmixed.eq_2 cs hcs, iff_true]
    cases cs with
    | nil => exact trivial
    | cons c cs =>
      refine ⟨fun m hm => ?_, ?_⟩
      · rw [command_clear] at hm
        exact absurd hm (by simp)
      · cases cs with
        | nil => exact trivial
        | cons b cs =>
          refine ⟨fun m hm => ?_, ?_⟩
          · obtain ⟨hb, hc⟩ := command_second hm
            exact ⟨hb, congrArg some hc⟩
          · cases cs with
            | nil => exact trivial
            | cons a cs => exact absurd rfl (hcs c b a cs)

/-- **A command of two keys takes two consecutive keys** exactly in the sequences where no
waiting letter is passed by the other one and typed again. -/
theorem twoKeys_iff {run : List (Int × Option Command)} (h : Calls Keo.start run) :
    TwoKeys run ↔ Unmixed (run.map Prod.fst) := by
  have hfrom : TwoKeys run ↔ TwoKeysFrom none run := by
    rw [twoKeysFrom_iff]
    simp only [Option.or_none, TwoKeys]
  have heq : run = callsOf false false (run.map Prod.fst) := h.eq
  rw [hfrom, ← callsOf_iff (run.map Prod.fst) none, ← heq]

/-- `d` and `gg`: the line stays, and the jump is carried out. -/
theorem twoKeys_iff_jump : ∃ run, Calls Keo.start run ∧ run.map Prod.fst = [100, 103, 103] ∧
    TwoKeys run := by
  have hrun : Calls Keo.start [(100, none), (103, none), (103, some .jump)] :=
    .cons rfl rfl (normalCalls_d _) (.cons rfl rfl (normalCalls_g _)
      (.cons rfl rfl (normalCalls_g _) (.nil _)))
  refine ⟨_, hrun, rfl, (twoKeys_iff hrun).mpr ?_⟩
  simp [Unmixed, IsLetter]

/-- `d`, `g`, `d`: a line is deleted though the key before was a `g`. In the editor the keys take
the first of two lines away. -/
theorem d_g_d_deletes : (∃ run, Calls Keo.start run ∧ run.map Prod.fst = [100, 103, 100] ∧
      run.getLast? = some (100, some .delLine) ∧ ¬ TwoKeys run) ∧
    (opened [97] (some [120, 10, 121, 10])).map (fun next =>
      (keyRun [(100, 0), (103, 0), (100, 0)] next).map fun next => next.keo.lines) =
        some (some [[121]]) := by
  refine ⟨?_, by decide +kernel⟩
  have hrun : Calls Keo.start [(100, none), (103, none), (100, some .delLine)] :=
    .cons rfl rfl (normalCalls_d _) (.cons rfl rfl (normalCalls_g _)
      (.cons rfl rfl (normalCalls_d _) (.nil _)))
  refine ⟨_, hrun, rfl, rfl, fun h => ?_⟩
  have hlast := (h [(100, none), (103, none)] 100 .delLine [] rfl).2
  exact absurd hlast (by decide)

/-! ## The runs of the editor -/

/-- The flags are as they were. -/
structure SameFlags (k k' : Keo) : Prop where
  d : k'.pendD = k.pendD
  g : k'.pendG = k.pendG

theorem SameFlags.refl (k : Keo) : SameFlags k k := ⟨rfl, rfl⟩

theorem SameFlags.trans {k k' k'' : Keo} (h : SameFlags k k') (h' : SameFlags k' k'') :
    SameFlags k k'' := ⟨h'.d.trans h.d, h'.g.trans h.g⟩

section Elsewhere

variable {k k' : Keo}

theorem Edited.flags (h : Edited k k') : SameFlags k k' := by
  cases h with
  | changed => exact ⟨rfl, rfl⟩
  | kept => exact ⟨rfl, rfl⟩

theorem drawNext_flags {next next' : Next} (h : drawNext next = some next') :
    SameFlags next.keo next'.keo := by
  cases next with
  | exited k₁ =>
    cases h
    exact SameFlags.refl k₁
  | go k₁ =>
    obtain ⟨p, hdraw, h⟩ := Option.bind_eq_some_iff.mp h
    cases h
    obtain ⟨cx, cy, top, heq⟩ := draw_eq hdraw
    rw [Next.keo, Next.keo, heq]
    exact ⟨rfl, rfl⟩

theorem message_flags {s : List UInt8} {next : Next} (h : (setMsg s k).map .go = some next) :
    SameFlags k next.keo := by
  obtain ⟨k₁, hmsg, rfl⟩ := Option.map_eq_some_iff.mp h
  exact (setMsg_edited hmsg).flags

theorem doSave_flags {r : Int} {next : Next} (h : doSave r k = some next) :
    SameFlags k next.keo := by
  obtain ⟨p, hs, h⟩ := Option.bind_eq_some_iff.mp h
  have hsave : SameFlags k p.2.1 := by
    unfold save at hs
    obtain ⟨c, -, hs⟩ := Option.bind_eq_some_iff.mp hs
    split at hs
    · cases hs
      exact SameFlags.refl k
    · obtain ⟨b, -, hs⟩ := Option.bind_eq_some_iff.mp hs
      split at hs
      · cases hs
        exact SameFlags.refl k
      · cases hs
        dsimp only
        split
        · exact ⟨rfl, rfl⟩
        · exact SameFlags.refl k
  dsimp only at h
  split at h
  · cases h
    exact hsave
  · exact hsave.trans (message_flags h)

theorem execCmd_flags {r : Int} {next : Next} (h : execCmd r k = some next) :
    SameFlags k next.keo := by
  unfold execCmd at h
  obtain ⟨isW, -, h⟩ := Option.bind_eq_some_iff.mp h
  refine of_ite h (fun _ h => doSave_flags h) fun _ h => ?_
  obtain ⟨rename, -, h⟩ := Option.bind_eq_some_iff.mp h
  refine of_ite h (fun _ h => ?_) fun _ h => ?_
  · obtain ⟨p, -, h⟩ := Option.bind_eq_some_iff.mp h
    obtain ⟨fname, -, h⟩ := Option.bind_eq_some_iff.mp h
    have hsave := doSave_flags h
    exact ⟨hsave.d, hsave.g⟩
  obtain ⟨isQ, -, h⟩ := Option.bind_eq_some_iff.mp h
  refine of_ite h (fun _ h => ?_) fun _ h => ?_
  · refine of_ite h (fun _ h => message_flags h) fun _ h => ?_
    cases h
    exact SameFlags.refl k
  obtain ⟨isQuit, -, h⟩ := Option.bind_eq_some_iff.mp h
  refine of_ite h (fun _ h => ?_) fun _ h => ?_
  · cases h
    exact SameFlags.refl k
  obtain ⟨isWq, -, h⟩ := Option.bind_eq_some_iff.mp h
  exact of_ite h (fun _ h => doSave_flags h) fun _ h => message_flags h

theorem cmdKey_flags {c r : Int} {next : Next} (h : cmdKey c r k = some next) :
    SameFlags k next.keo := by
  unfold cmdKey at h
  refine of_ite h (fun _ h => ?_) fun _ h => ?_
  · cases h
    exact ⟨rfl, rfl⟩
  refine of_ite h (fun _ h => ?_) fun _ h => ?_
  · have hcmd := execCmd_flags h
    exact ⟨hcmd.d, hcmd.g⟩
  refine of_ite h (fun _ h => ?_) fun _ h => ?_
  · refine of_ite h (fun _ h => ?_) fun _ h => ?_
    · obtain ⟨cmd, -, h⟩ := Option.bind_eq_some_iff.mp h
      cases h
      exact ⟨rfl, rfl⟩
    · cases h
      exact SameFlags.refl k
  refine of_ite h (fun _ h => ?_) fun _ h => ?_
  · obtain ⟨cmd, -, h⟩ := Option.bind_eq_some_iff.mp h
    obtain ⟨cmd', -, h⟩ := Option.bind_eq_some_iff.mp h
    cases h
    exact ⟨rfl, rfl⟩
  · cases h
    exact SameFlags.refl k

end Elsewhere

/-- The key goes to `normal_key`: in normal mode every key does, in insert mode an arrow. -/
def Handed (c : Int) (k : Keo) : Prop := k.mode = .normal ∨ k.mode = .insert ∧ IsArrow c

instance (c : Int) (k : Keo) : Decidable (Handed c k) := by unfold Handed; infer_instance

/-- The keys of a run that go to `normal_key`. -/
def handed : List (Int × Int) → Next → List Int
  | [], _ => []
  | _, .exited _ => []
  | (c, r) :: keys, .go k =>
    let rest := match keyStep c r k with
      | none => []
      | some next => handed keys next
    if Handed c k then c :: rest else rest

theorem Calls.congr {k k' : Keo} {run : List (Int × Option Command)} (h : SameFlags k k')
    (hrun : Calls k' run) : Calls k run := by
  cases hrun with
  | nil => exact .nil k
  | cons hd hg hcall hrest => exact .cons (hd.trans h.d) (hg.trans h.g) hcall hrest

/-- A call of `normal_key` in front of a run. -/
theorem Calls.of_normalKey {c : Int} {k j k' : Keo} {run : List (Int × Option Command)}
    (hkey : normalKey c j = some k') (hflags : SameFlags k j) (hrun : Calls k' run) :
    ∃ cmd, Calls k ((c, cmd) :: run) := by
  obtain ⟨p, hchain, hkey⟩ := Option.bind_eq_some_iff.mp hkey
  rw [normalCalls_chain] at hchain
  obtain ⟨q, hcalls, rfl⟩ := Option.map_eq_some_iff.mp hchain
  obtain rfl := Option.some.inj hkey
  exact ⟨q.1, .cons hflags.d hflags.g hcalls hrun⟩

/-- One key of the editor: a call of `normal_key`, or the flags stay. -/
theorem keyStep_calls {c r : Int} {k : Keo} {next : Next} (h : keyStep c r k = some next)
    {run : List (Int × Option Command)} (hrun : Calls next.keo run) :
    ∃ run', Calls k run' ∧
      run'.map Prod.fst = if Handed c k then c :: run.map Prod.fst else run.map Prod.fst := by
  unfold keyStep at h
  obtain ⟨msg, -, h⟩ := Option.bind_eq_some_iff.mp h
  obtain ⟨next₁, hdisp, hdraw⟩ := Option.bind_eq_some_iff.mp h
  have hrest := hrun.congr (drawNext_flags hdraw)
  have hmsg : SameFlags k { k with msg := msg } := ⟨rfl, rfl⟩
  unfold dispatch at hdisp
  split at hdisp
  · next hmode =>
    have hto : Handed c k := Or.inl hmode
    obtain ⟨k', hkey, rfl⟩ := Option.map_eq_some_iff.mp hdisp
    obtain ⟨cmd, hnew⟩ := Calls.of_normalKey hkey hmsg hrest
    exact ⟨_, hnew, by rw [if_pos hto]; rfl⟩
  · next hmode =>
    have hmode : k.mode = .insert := hmode
    have hnormal : k.mode ≠ .normal := by rw [hmode]; decide
    obtain ⟨k', hkey, rfl⟩ := Option.map_eq_some_iff.mp hdisp
    rcases insertKey_cases hkey with ⟨harrow, hkey⟩ | ⟨hno, hedit⟩
    · have hto : Handed c k := Or.inr ⟨hmode, harrow⟩
      obtain ⟨cmd, hnew⟩ := Calls.of_normalKey hkey hmsg hrest
      exact ⟨_, hnew, by rw [if_pos hto]; rfl⟩
    · have hto : ¬ Handed c k := fun hh => hh.elim hnormal fun hh => hno hh.2
      exact ⟨run, hrest.congr (hmsg.trans hedit.flags), by rw [if_neg hto]⟩
  · next hmode =>
    have hmode : k.mode = .cmd := hmode
    have hno : ¬ Handed c k := by
      intro hh
      rw [Handed, hmode] at hh
      exact absurd hh (by simp)
    have hcmd := cmdKey_flags hdisp
    have hflags : SameFlags k next₁.keo := ⟨hcmd.d, hcmd.g⟩
    exact ⟨run, hrest.congr hflags, by rw [if_neg hno]⟩

/-- The keys of a run that are handed to `normal_key` are handled by such calls. -/
theorem keyRun_calls : ∀ (keys : List (Int × Int)) {next next' : Next},
    keyRun keys next = some next' →
      ∃ run, Calls next.keo run ∧ run.map Prod.fst = handed keys next
  | [], next, next', _ => ⟨[], .nil _, by rw [handed]; rfl⟩
  | (c, r) :: keys, .exited k, next', _ => ⟨[], .nil _, rfl⟩
  | (c, r) :: keys, .go k, next', h => by
    rw [keyRun] at h
    obtain ⟨next₁, hstep, hrest⟩ := Option.bind_eq_some_iff.mp h
    obtain ⟨run, hrun, hkeys⟩ := keyRun_calls keys hrest
    obtain ⟨run', hrun', hkeys'⟩ := keyStep_calls hstep hrun
    refine ⟨run', hrun', ?_⟩
    rw [hkeys', hkeys, handed, hstep]

theorem opened_flags {arg : List UInt8} {file : Option (List UInt8)} {next : Next}
    (h : opened arg file = some next) : SameFlags Keo.start next.keo := by
  unfold opened at h
  split at h
  · cases h
    exact SameFlags.refl _
  · obtain ⟨p, -, h⟩ := Option.bind_eq_some_iff.mp h
    obtain ⟨fname, -, h⟩ := Option.bind_eq_some_iff.mp h
    obtain ⟨k, hload, hdraw⟩ := Option.bind_eq_some_iff.mp h
    refine SameFlags.trans ?_ (drawNext_flags hdraw)
    unfold load at hload
    obtain ⟨t, -, hload⟩ := Option.bind_eq_some_iff.mp hload
    obtain ⟨msg, -, hload⟩ := Option.bind_eq_some_iff.mp hload
    cases file with
    | none =>
      cases hload
      exact ⟨rfl, rfl⟩
    | some bytes =>
      refine of_ite hload (fun _ hload => ?_) fun _ hload => ?_
      · cases hload
        exact ⟨rfl, rfl⟩
      · obtain ⟨q, -, hload⟩ := Option.bind_eq_some_iff.mp hload
        cases hload
        dsimp only [Next.keo]
        split <;> exact ⟨rfl, rfl⟩

/-- **The keys the editor hands to `normal_key`** are such a sequence of calls, from clear flags
on: in no other mode do the flags change. -/
theorem keo_calls {arg : List UInt8} {file : Option (List UInt8)} {next next' : Next}
    (hopen : opened arg file = some next) {keys : List (Int × Int)}
    (hrun : keyRun keys next = some next') :
    ∃ run, Calls Keo.start run ∧ run.map Prod.fst = handed keys next := by
  obtain ⟨run, hcalls, hkeys⟩ := keyRun_calls keys hrun
  exact ⟨run, hcalls.congr (opened_flags hopen), hkeys⟩

end InaneOS.User
