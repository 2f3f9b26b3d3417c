import InaneOS.Drivers.Keyboard

/-!
# The prefix `E0`

A key event is one byte, or `E0` and one byte. `kbd_decode` remembers the prefix in the
flag `e0` and takes it back with the byte that follows, except where the byte is one of
the modifier codes: those are tested before the flag is looked at and return at once. A
keyboard sends `E0 2A` and `E0 AA` around an arrow key, so the flag stays set for the
key typed next, and the shift flag is changed by a shift key nobody pressed.

`PrefixHolds` says what the prefix should do, event by event; `prefixHolds_iff` says for
which sequences the code does it.
-/

namespace InaneOS.Drivers

/-- A key event: a byte alone, or after the prefix. -/
inductive Stroke
  | plain (b : UInt8) (h : b ≠ 0xE0)
  | extended (b : UInt8) (h : b ≠ 0xE0)

/-- The bytes the keyboard sends. -/
def Stroke.bytes : Stroke → List UInt8
  | .plain b _ => [b]
  | .extended b _ => [0xE0, b]

/-- No flag is set. -/
def Flags.clear : Flags := ⟨false, false, false⟩

/-- The flags after the bytes `bs`. -/
def flagsAfter (bs : List UInt8) (f : Flags) : Flags := bs.foldl (fun f b => (kbdDecode b f).2) f

/-- The flags after the events `es`. -/
def strokesAfter (es : List Stroke) (f : Flags) : Flags := flagsAfter (es.flatMap Stroke.bytes) f

theorem flagsAfter_append (as bs : List UInt8) (f : Flags) :
    flagsAfter (as ++ bs) f = flagsAfter bs (flagsAfter as f) := List.foldl_append

/-- The flags of the handler are those after the interrupts so far, whatever the reader did
in between. -/
theorem run_flags (es : List KeyEvent) : ∀ t : History,
    (t.run es).kbd.flags =
      flagsAfter (es.filterMap fun | .irq sc => some sc | .cpu => none) t.kbd.flags := by
  induction es with
  | nil => exact fun t => rfl
  | cons e es ih =>
    intro t
    have hrun : t.run (e :: es) = (t.step e).run es := rfl
    rw [hrun, ih]
    cases e with
    | cpu =>
      have hstep : (t.step .cpu).kbd.flags = t.kbd.flags := by
        simp only [History.step, getcharStep]
        cases t.kbd.pc with
        | test => dsimp only; split <;> rfl
        | idle | load | store => rfl
      rw [hstep]
      rfl
    | irq sc =>
      have hstep : (t.step (.irq sc)).kbd.flags = (kbdDecode sc t.kbd.flags).2 := by
        simp only [History.step, keyboardHandler, push]
        split
        · split <;> rfl
        · rfl
      rw [hstep]
      rfl

/-! ## What the prefix should do -/

/-- One event, from the flags `f`: a byte alone is read without the prefix, the flag is clear
at the end, and an extended key leaves the modifiers alone. -/
structure StrokeHolds (e : Stroke) (f : Flags) : Prop where
  start : f.e0 = false
  done : (flagsAfter e.bytes f).e0 = false
  shift : ∀ b h, e = .extended b h → (flagsAfter e.bytes f).shift = f.shift
  caps : ∀ b h, e = .extended b h → (flagsAfter e.bytes f).caps = f.caps

/-- Every event of a sequence, with all flags clear at the start. -/
def PrefixHolds (es : List Stroke) : Prop :=
  ∀ before e after, es = before ++ e :: after → StrokeHolds e (strokesAfter before .clear)

/-! ## What it does -/

/-- The codes tested before the flag: both shift keys down and up, and caps lock. -/
def IsModifier (b : UInt8) : Prop := b = 0x2A ∨ b = 0x36 ∨ b = 0xAA ∨ b = 0xB6 ∨ b = 0x3A

instance (b : UInt8) : Decidable (IsModifier b) := by
  unfold IsModifier
  infer_instance

/-- A byte alone sets no prefix. -/
theorem plain_e0 {b : UInt8} (h : b ≠ 0xE0) {f : Flags} (hf : f.e0 = false) :
    (kbdDecode b f).2.e0 = false := by
  have hplain : ∀ {c : Prop} [Decidable c] {p q : UInt8 × Flags}, p.2.e0 = false → q.2.e0 = false →
      (if c then p else q).2.e0 = false := by
    intro c _ p q hp hq
    split
    · exact hp
    · exact hq
  unfold kbdDecode
  rw [if_neg h]
  -- the modifiers leave the flag, and the translation of a key does not look at it
  refine hplain hf (hplain hf (hplain hf (hplain rfl (hplain hf (hplain hf (hplain ?_ ?_))))))
  · split <;> exact hf
  · split <;> exact hf

/-- After the prefix a modifier returns before the flag is taken back. -/
theorem extended_modifier {b : UInt8} (hb : IsModifier b) (f : Flags) :
    (flagsAfter [0xE0, b] f).e0 = true := by
  rcases hb with rfl | rfl | rfl | rfl | rfl <;> rfl

/-- Any other byte takes it back and does nothing else to the flags. -/
theorem extended_other {b : UInt8} (h : b ≠ 0xE0) (hb : ¬ IsModifier b) (f : Flags) :
    flagsAfter [0xE0, b] f = { f with e0 := false } := by
  unfold IsModifier at hb
  push Not at hb
  obtain ⟨h1, h2, h3, h4, h5⟩ := hb
  show (kbdDecode b { f with e0 := true }).2 = _
  unfold kbdDecode
  rw [if_neg h, if_neg (by rintro (rfl | rfl) <;> contradiction),
    if_neg (by rintro (rfl | rfl) <;> contradiction), if_neg h5, if_pos rfl]

/-- One event from a clear flag. -/
theorem strokeHolds {e : Stroke} {f : Flags} (hf : f.e0 = false)
    (he : ∀ b h, e = .extended b h → ¬ IsModifier b) : StrokeHolds e f := by
  cases e with
  | plain b h =>
    exact ⟨hf, plain_e0 h hf, fun _ _ hc => (Stroke.noConfusion hc), fun _ _ hc =>
      (Stroke.noConfusion hc)⟩
  | extended b h =>
    have hafter := extended_other h (he b h rfl) f
    refine ⟨hf, ?_, fun _ _ _ => ?_, fun _ _ _ => ?_⟩ <;> rw [Stroke.bytes, hafter]

/-- While no modifier comes after a prefix, the flag is clear between the events. -/
theorem strokesAfter_e0 (es : List Stroke) : ∀ {f : Flags}, f.e0 = false →
    (∀ b h, Stroke.extended b h ∈ es → ¬ IsModifier b) → (strokesAfter es f).e0 = false := by
  induction es with
  | nil => exact fun hf _ => hf
  | cons e es ih =>
    intro f hf hes
    have hstep := strokeHolds (e := e) hf fun b h he => hes b h (by rw [he]; simp)
    have hcons : strokesAfter (e :: es) f = strokesAfter es (flagsAfter e.bytes f) := by
      rw [strokesAfter, List.flatMap_cons, flagsAfter_append]
      rfl
    rw [hcons]
    exact ih hstep.done fun b h hm => hes b h (List.mem_cons_of_mem _ hm)

/-- **The prefix reaches exactly the next byte** in the sequences where no shift or caps code
comes after a prefix, and in no other. -/
theorem prefixHolds_iff (es : List Stroke) :
    PrefixHolds es ↔ ∀ b h, Stroke.extended b h ∈ es → ¬ IsModifier b := by
  constructor
  · intro hp b h hmem hb
    obtain ⟨before, after, rfl⟩ := List.append_of_mem hmem
    have hdone := (hp before _ after rfl).done
    have hset := extended_modifier hb (strokesAfter before .clear)
    rw [Stroke.bytes] at hdone
    exact absurd (hset.symm.trans hdone) (by decide)
  · intro hes before e after heq
    subst heq
    refine strokeHolds (strokesAfter_e0 before rfl fun b h hm => hes b h (by simp [hm])) ?_
    intro b h he
    exact hes b h (by simp [he])

/-- The first byte a keyboard sends for an arrow key with num lock on, and then the key `K`:
the prefix is still set, and the key is read as an arrow. -/
theorem fake_shift_fails : ¬ PrefixHolds [.extended 0x2A (by decide), .plain 0x4B (by decide)] ∧
    kbdDecode 0x4B (strokesAfter [.extended 0x2A (by decide)] .clear) =
      (keyLeft, ⟨false, true, false⟩) := by
  refine ⟨fun hp => ?_, by decide⟩
  have hdone := (hp [] _ _ rfl).done
  exact absurd hdone (by decide)

end InaneOS.Drivers
