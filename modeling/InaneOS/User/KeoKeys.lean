import InaneOS.User.Keo

/-!
# What a key does

`normalChain` is a chain of eighteen tests. What follows from it comes down to six cases:
the key moves, possibly after a look at the length of the line, or it is one of the four
edits, or the colon. `normalChain_cases` says so once; what holds of every key is then a
case analysis over `NormalStep`.

What an edit can do is said in the same way (`Edited`), and what a key of the insert mode
comes to (`insertKey_cases`).
-/

namespace InaneOS.User

open InaneOS.Lib

/-- Only the cursor, the mode and the two pending keys differ. -/
def Moved (k k' : Keo) : Prop :=
  ∃ cx cy mode pendD pendG,
    k' = { k with cx := cx, cy := cy, mode := mode, pendD := pendD, pendG := pendG }

theorem Moved.refl (k : Keo) : Moved k k := ⟨_, _, _, _, _, rfl⟩

theorem Moved.trans {k k' k'' : Keo} (h : Moved k k') (h' : Moved k' k'') : Moved k k'' := by
  obtain ⟨cx, cy, mode, pendD, pendG, rfl⟩ := h
  obtain ⟨cx', cy', mode', pendD', pendG', rfl⟩ := h'
  exact ⟨cx', cy', mode', pendD', pendG', rfl⟩

theorem Moved.ite {c : Prop} [Decidable c] {k a b : Keo} (ha : Moved k a) (hb : Moved k b) :
    Moved k (if c then a else b) := by
  split
  · exact ha
  · exact hb

/-- What `normalChain` comes to. -/
inductive NormalStep (k : Keo) : Option (Bool × Keo) → Prop
  | move {done : Bool} {k' : Keo} (h : Moved k k') : NormalStep k (some (done, k'))
  | look {f : Int → Keo} (h : ∀ m, Moved k (f m)) :
      NormalStep k (k.text.len k.cy >>= fun m => some (false, f m))
  | newLine (below : Bool) : NormalStep k (openLine below k >>= fun k => some (false, k))
  | delChar : NormalStep k (delChar k >>= fun k => some (false, k))
  | delLine : NormalStep k (delLine k >>= fun k => some (false, { k with pendD := false }))
  | colon : NormalStep k (setAt 128 k.cmd 0 0 >>= fun cmd =>
      some (false, { k with mode := .cmd, cmdlen := 0, cmd := cmd }))

/-- One test after the other. -/
theorem normalChain_cases (c : Int) (k : Keo) : NormalStep k (normalChain c k) := by
  have hkeep : Moved k k := Moved.refl k
  unfold normalChain
  -- left, right, down, up
  refine iteInduction (fun _ => ?_) fun _ => ?_
  · exact .move (.ite ⟨_, _, _, _, _, rfl⟩ hkeep)
  refine iteInduction (fun _ => ?_) fun _ => ?_
  · exact .look fun m => .ite ⟨_, _, _, _, _, rfl⟩ hkeep
  refine iteInduction (fun _ => ?_) fun _ => ?_
  · exact .move (.ite ⟨_, _, _, _, _, rfl⟩ hkeep)
  refine iteInduction (fun _ => ?_) fun _ => ?_
  · exact .move (.ite ⟨_, _, _, _, _, rfl⟩ hkeep)
  -- into the insert mode
  refine iteInduction (fun _ => ?_) fun _ => ?_
  · exact .move ⟨_, _, _, _, _, rfl⟩
  refine iteInduction (fun _ => ?_) fun _ => ?_
  · have hright : ∀ m : Int, Moved k (if k.cx < m then { k with cx := k.cx + 1 } else k) := fun m =>
      .ite ⟨_, _, _, _, _, rfl⟩ hkeep
    exact .look fun m => (hright m).trans ⟨_, _, _, _, _, rfl⟩
  refine iteInduction (fun _ => ?_) fun _ => ?_
  · exact .look fun m => ⟨_, _, _, _, _, rfl⟩
  -- the edits
  refine iteInduction (fun _ => ?_) fun _ => ?_
  · exact .newLine true
  refine iteInduction (fun _ => ?_) fun _ => ?_
  · exact .newLine false
  refine iteInduction (fun _ => ?_) fun _ => ?_
  · exact .delChar
  refine iteInduction (fun _ => ?_) fun _ => ?_
  · refine iteInduction (fun _ => ?_) fun _ => ?_
    · exact .delLine
    · exact .move ⟨_, _, _, _, _, rfl⟩
  -- the other movements and the colon
  refine iteInduction (fun _ => ?_) fun _ => ?_
  · refine iteInduction (fun _ => ?_) fun _ => ?_
    · exact .move ⟨_, _, _, _, _, rfl⟩
    · exact .move ⟨_, _, _, _, _, rfl⟩
  refine iteInduction (fun _ => ?_) fun _ => ?_
  · exact .move ⟨_, _, _, _, _, rfl⟩
  refine iteInduction (fun _ => ?_) fun _ => ?_
  · exact .move ⟨_, _, _, _, _, rfl⟩
  refine iteInduction (fun _ => ?_) fun _ => ?_
  · exact .look fun m => ⟨_, _, _, _, _, rfl⟩
  refine iteInduction (fun _ => ?_) fun _ => ?_
  · exact .colon
  · exact .move hkeep

/-- A key that is not a pending one forgets both. -/
theorem forget_moved (c : Int) (k : Keo) : Moved k (forget c k) := ⟨_, _, _, _, _, rfl⟩

/-! ## The edits -/

/-- What an edit leaves: another text, with the flag set, or at most another cursor, mode and
message. -/
inductive Edited (k : Keo) : Keo → Prop
  | changed (text : Text) (nlines cx cy : Int) (mode : Mode) :
      Edited k { k with
        text := text, nlines := nlines, cx := cx, cy := cy, mode := mode, dirty := true }
  | kept (cx cy : Int) (mode : Mode) (msg : Int → UInt8) :
      Edited k { k with cx := cx, cy := cy, mode := mode, msg := msg }

section Edits

variable {k k' : Keo}

theorem setMsg_eq {s : List UInt8} (h : setMsg s k = some k') :
    ∃ msg, k' = { k with msg := msg } := by
  obtain ⟨p, -, h⟩ := Option.bind_eq_some_iff.mp h
  obtain ⟨msg, -, h⟩ := Option.bind_eq_some_iff.mp h
  cases h
  exact ⟨msg, rfl⟩

theorem setMsg_edited {s : List UInt8} (h : setMsg s k = some k') : Edited k k' := by
  obtain ⟨msg, rfl⟩ := setMsg_eq h
  exact .kept k.cx k.cy k.mode msg

theorem delChar_edited (h : delChar k = some k') : Edited k k' := by
  obtain ⟨m, -, h⟩ := Option.bind_eq_some_iff.mp h
  split at h
  · obtain ⟨t, -, h⟩ := Option.bind_eq_some_iff.mp h
    obtain ⟨t', -, h⟩ := Option.bind_eq_some_iff.mp h
    cases h
    exact .changed t' k.nlines k.cx k.cy k.mode
  · cases h
    exact .kept k.cx k.cy k.mode k.msg

theorem delLine_edited (h : delLine k = some k') : Edited k k' := by
  unfold delLine at h
  split at h
  · obtain ⟨t, -, h⟩ := Option.bind_eq_some_iff.mp h
    cases h
    exact .changed t k.nlines 0 k.cy k.mode
  · obtain ⟨k₁, hdel, h⟩ := Option.bind_eq_some_iff.mp h
    obtain ⟨t, -, hdel⟩ := Option.bind_eq_some_iff.mp hdel
    cases hdel
    cases h
    exact .changed t (k.nlines - 1) k.cx k.cy k.mode

theorem openLine_edited {below : Bool} (h : openLine below k = some k') : Edited k k' := by
  unfold openLine at h
  split at h
  · exact setMsg_edited h
  · obtain ⟨t, -, h⟩ := Option.bind_eq_some_iff.mp h
    obtain ⟨t', -, h⟩ := Option.bind_eq_some_iff.mp h
    cases h
    exact .changed t' (k.nlines + 1) 0 _ .insert

theorem enter_edited (h : enter k = some k') : Edited k k' := by
  unfold enter at h
  split at h
  · exact setMsg_edited h
  · obtain ⟨t, -, h⟩ := Option.bind_eq_some_iff.mp h
    obtain ⟨m, -, h⟩ := Option.bind_eq_some_iff.mp h
    obtain ⟨t₁, -, h⟩ := Option.bind_eq_some_iff.mp h
    obtain ⟨t₂, -, h⟩ := Option.bind_eq_some_iff.mp h
    obtain ⟨t₃, -, h⟩ := Option.bind_eq_some_iff.mp h
    cases h
    exact .changed t₃ (k.nlines + 1) 0 (k.cy + 1) k.mode

theorem backspace_edited (h : backspace k = some k') : Edited k k' := by
  unfold backspace at h
  split at h
  · -- only the cursor has moved before the character goes
    cases delChar_edited h with
    | changed text nlines cx cy mode => exact .changed text nlines cx cy mode
    | kept cx cy mode msg => exact .kept cx cy mode msg
  · split at h
    · obtain ⟨pl, -, h⟩ := Option.bind_eq_some_iff.mp h
      obtain ⟨m, -, h⟩ := Option.bind_eq_some_iff.mp h
      split at h
      · obtain ⟨t, -, h⟩ := Option.bind_eq_some_iff.mp h
        obtain ⟨t', -, h⟩ := Option.bind_eq_some_iff.mp h
        obtain ⟨k₁, hdel, h⟩ := Option.bind_eq_some_iff.mp h
        obtain ⟨t'', -, hdel⟩ := Option.bind_eq_some_iff.mp hdel
        cases hdel
        cases h
        exact .changed t'' (k.nlines - 1) pl (k.cy - 1) k.mode
      · cases h
        exact .kept k.cx k.cy k.mode k.msg
    · cases h
      exact .kept k.cx k.cy k.mode k.msg

theorem insertChar_edited {c : UInt8} (h : insertChar c k = some k') : Edited k k' := by
  obtain ⟨m, -, h⟩ := Option.bind_eq_some_iff.mp h
  split at h
  · obtain ⟨t, -, h⟩ := Option.bind_eq_some_iff.mp h
    obtain ⟨t₁, -, h⟩ := Option.bind_eq_some_iff.mp h
    obtain ⟨t₂, -, h⟩ := Option.bind_eq_some_iff.mp h
    cases h
    exact .changed t₂ k.nlines (k.cx + 1) k.cy k.mode
  · cases h
    exact .kept k.cx k.cy k.mode k.msg

/-- The keys that `insert_key` hands to `normal_key`. -/
def IsArrow (c : Int) : Prop := c = keyUp ∨ c = keyDown ∨ c = keyLeft ∨ c = keyRight

instance (c : Int) : Decidable (IsArrow c) := by unfold IsArrow; infer_instance

/-- In insert mode an arrow is a key of the normal mode, and any other key an edit. -/
theorem insertKey_cases {c : Int} (h : insertKey c k = some k') :
    IsArrow c ∧ normalKey c k = some k' ∨ ¬ IsArrow c ∧ Edited k k' := by
  unfold insertKey at h
  by_cases hesc : c = 27
  · subst hesc
    obtain ⟨m, -, h⟩ := Option.bind_eq_some_iff.mp h
    refine Or.inr ⟨by decide, ?_⟩
    cases h
    split
    · exact .kept _ k.cy .normal k.msg
    · exact .kept k.cx k.cy .normal k.msg
  · rw [if_neg hesc] at h
    by_cases harrow : IsArrow c
    · exact Or.inl ⟨harrow, (if_pos harrow).symm.trans h⟩
    · refine Or.inr ⟨harrow, ?_⟩
      have h := (if_neg harrow).symm.trans h
      split at h
      · exact enter_edited h
      split at h
      · exact backspace_edited h
      split at h
      · exact insertChar_edited h
      · cases h
        exact .kept k.cx k.cy k.mode k.msg

end Edits

/-- Drawing clamps the cursor and scrolls. -/
theorem draw_eq {k k' : Keo} {out : List Paint} (h : draw k = some (k', out)) :
    ∃ cx cy top, k' = { k with cx := cx, cy := cy, top := top } := by
  obtain ⟨k₁, hclamp, h⟩ := Option.bind_eq_some_iff.mp h
  obtain ⟨rows, -, h⟩ := Option.bind_eq_some_iff.mp h
  obtain ⟨status, -, h⟩ := Option.bind_eq_some_iff.mp h
  obtain ⟨cmd, -, h⟩ := Option.bind_eq_some_iff.mp h
  cases h
  obtain ⟨m, -, hclamp⟩ := Option.bind_eq_some_iff.mp hclamp
  cases hclamp
  exact ⟨_, _, _, rfl⟩

end InaneOS.User
