import InaneOS.Kernel.Invariant

/-!
# What a call may write to

A call that returns has stored to nothing but the buffer it was given, and reports no
more bytes than the buffer has (`calls_confined`): the programs of `user/` go on to
print as many bytes as they are told. One call reaches a byte further: `SYS_PARTLIST`
can store in front of its buffer, when the text of a partition ends before its type
(`InaneOS.Kernel.Partlist` says exactly when).

`Request.run_fits` is this for the file system, with the FAT driver below it, and
`emits_near` for the `emit` helpers; `dispatch_confined` puts all calls together.
-/

namespace InaneOS.Kernel

open InaneOS.Lib
open InaneOS.Fat (Str Vol slash)
open InaneOS.Fs

/-! ## The file system -/

theorem listLoop_le {s : FS} {dir cap : Nat} : ∀ {is : List Nat} {out : Str}, out.length ≤ cap →
    (listLoop s dir cap is out).length ≤ cap
  | [], _, h => h
  | i :: is, out, h => by
    rw [listLoop]
    split
    · exact listLoop_le h
    · split
      · exact h
      · refine listLoop_le ?_
        split <;> simp only [List.length_append, List.length_singleton, List.length_nil] <;> omega

/-- A path that is put together leaves room for its NUL. -/
theorem cwdEmit_le {s : FS} {cap : Nat} : ∀ {is : List Nat} {out : Str}, out.length ≤ cap →
    (cwdEmit s cap is out).2.length ≤ cap ∧
      ((cwdEmit s cap is out).1 = true → is ≠ [] → (cwdEmit s cap is out).2.length + 1 ≤ cap)
  | [], _, h => ⟨h, fun _ hne => absurd rfl hne⟩
  | i :: is, out, h => by
    rw [cwdEmit]
    split
    · exact ⟨h, fun hc => absurd hc (by simp)⟩
    · have hlen : (out ++ slash :: (s.nodes i).name).length + 1 ≤ cap := by
        rw [List.length_append, List.length_cons]
        omega
      have hrest := @cwdEmit_le s cap is _ (Nat.le_of_succ_le hlen)
      obtain ⟨hle, hroom⟩ := hrest
      refine ⟨hle, fun hok _ => ?_⟩
      cases is with
      | nil => exact hlen
      | cons j js => exact hroom hok (List.cons_ne_nil j js)

theorem cwdStack_ne {s : FS} : ∀ (k cur : Nat) {stack : List Nat}, stack ≠ [] →
    cwdStack s k cur stack ≠ []
  | 0, _, _, h => h
  | k + 1, cur, stack, h => by
    rw [cwdStack]
    split
    · exact cwdStack_ne k _ (List.cons_ne_nil _ _)
    · exact h

theorem fsGetcwd_fits (s : FS) (cap : Nat) :
    (fsGetcwd cap s).2.length ≤ cap ∧ -1 ≤ (fsGetcwd cap s).1 ∧ (fsGetcwd cap s).1 ≤ cap := by
  unfold fsGetcwd
  split
  · unfold Fat.fatGetcwd
    split
    · next hno =>
      split at hno
      · exact ⟨Nat.zero_le _, Int.le_refl _, by simp only; omega⟩
      · exact absurd hno (by simp)
    · next out hout =>
      split at hout
      · exact absurd hout (by simp)
      · obtain rfl := Option.some.inj hout
        simp only [List.length_append, List.length_singleton]
        omega
  · split
    · exact ⟨Nat.zero_le _, Int.le_refl _, by unfold fsBadpath; omega⟩
    split
    · simp only [List.length_cons, List.length_nil]
      omega
    · next hcwd =>
      have hne : cwdStack s fsMax s.cwd [] ≠ [] := by
        show (if s.cwd ≠ 0 then cwdStack s 63 (s.nodes s.cwd).parent.toNat [s.cwd] else []) ≠ []
        rw [if_pos hcwd]
        exact cwdStack_ne 63 _ (List.cons_ne_nil _ _)
      obtain ⟨hle, hroom⟩ := @cwdEmit_le s cap (cwdStack s fsMax s.cwd []) [] (Nat.zero_le _)
      split
      · next out he =>
        rw [he] at hle
        exact ⟨hle, Int.le_refl _, by unfold fsBadpath; omega⟩
      · next out he =>
        rw [he] at hroom
        have hfit := hroom rfl hne
        simp only [List.length_append, List.length_singleton] at hfit ⊢
        omega

theorem readClus_le {cap : Nat} : ∀ (n l : Nat) {out : Str} (f : Vol), out.length ≤ cap →
    (Fat.readClus cap n l out f).2.1.length ≤ cap
  | 0, _, _, _, h => h
  | n + 1, l, out, f, h => by
    rw [Fat.readClus]
    split
    · split
      · exact h
      · refine readClus_le n (l + 1) _ ?_
        split <;> simp only [List.length_append, List.length_map, List.length_range] <;> omega
    · exact h

theorem readChain_le {cap : Nat} : ∀ (fuel c : Nat) {out o : Str} {b : Bool} {f f' : Vol},
    out.length ≤ cap → Fat.readChain cap fuel c out f = some (b, o, f') → o.length ≤ cap
  | 0, _, _, _, _, _, _, _, h => absurd h (by simp [Fat.readChain])
  | fuel + 1, c, out, o, b, f, f', hle, h => by
    have hclus := readClus_le f.secPerClus (Fat.clusLba c f.toGeo) f hle
    rw [Fat.readChain] at h
    split at h
    · split at h
      · simp only [Option.some.injEq, Prod.mk.injEq] at h
        rw [← h.2.1]
        exact hle
      · split at h
        · next hc =>
          rw [hc] at hclus
          simp only [Option.some.injEq, Prod.mk.injEq] at h
          rw [← h.2.1]
          exact hclus
        · next hc =>
          rw [hc] at hclus
          exact readChain_le fuel _ hclus h
    · simp only [Option.some.injEq, Prod.mk.injEq] at h
      rw [← h.2.1]
      exact hle

theorem fatRead_fits {fuel cap : Nat} {path : Str} {f f' : Vol} {r : Option Nat} {out : Str}
    (h : Fat.fatRead fuel path cap f = some ((r, out), f')) :
    out.length ≤ cap ∧ ∀ n, r = some n → n ≤ cap := by
  have hmin : ∀ {size : Nat}, (if size < cap then size else cap) ≤ cap := by
    intro size
    split <;> omega
  have hnone : ∀ {g : Vol}, some ((none, []), g) = some ((r, out), f') →
      out.length ≤ cap ∧ ∀ n, r = some n → n ≤ cap := by
    intro g hg
    simp only [Option.some.injEq, Prod.mk.injEq] at hg
    rw [← hg.1.1, ← hg.1.2]
    exact ⟨Nat.zero_le _, fun n hn => absurd hn (by simp)⟩
  unfold Fat.fatRead at h
  split at h
  · exact hnone h
  · split at h
    · exact absurd h (by simp)
    · exact hnone h
    · split at h
      · exact hnone h
      · split at h
        · exact absurd h (by simp)
        · next hr =>
          have hle := (readChain_le _ _ (Nat.zero_le _) hr).trans hmin
          simp only [Option.some.injEq, Prod.mk.injEq] at h
          rw [← h.1.1, ← h.1.2]
          exact ⟨hle, fun n hn => absurd hn (by simp)⟩
        · next hr =>
          have hle := (readChain_le _ _ (Nat.zero_le _) hr).trans hmin
          simp only [Option.some.injEq, Prod.mk.injEq] at h
          rw [← h.1.1, ← h.1.2]
          exact ⟨hle, fun n hn => Option.some.inj hn ▸ hle⟩

/-- The size of the buffer of a request that comes with one. -/
def Request.buf : Request → Option Nat
  | .call (.listdir _ cap) => some cap
  | .call (.getcwd cap) => some cap
  | .call (.freadRam _ cap) => some cap
  | .fread _ cap => some cap
  | _ => none

/-- What is stored fits the buffer, and no more is reported; without a buffer nothing is stored. -/
def Fitting (buf : Option Nat) (r : Int × Str) : Prop :=
  match buf with
  | none => r.2 = []
  | some cap => r.2.length ≤ cap ∧ -1 ≤ r.1 ∧ r.1 ≤ cap

theorem fsFreadRam_fits (path : Str) (cap : Nat) (s : FS) :
    Fitting (some cap) (fsFreadRam path cap s) := by
  have hfail : Fitting (some cap) (-1, []) :=
    ⟨Nat.zero_le _, Int.le_refl _, show (-1 : Int) ≤ cap by omega⟩
  unfold fsFreadRam
  split
  · exact hfail
  · next j _ =>
    split
    · exact hfail
    · have hle : (if (s.nodes j).datalen > cap then cap else (s.nodes j).datalen) ≤ cap := by
        split <;> omega
      refine ⟨?_, ?_, Int.ofNat_le.mpr hle⟩
      · rw [List.length_map, List.length_range]
        exact hle
      · dsimp only
        omega

theorem listdirOut_le {fuel cap : Nat} {path : Str} {s s' : FS} {r : Int × Str}
    (h : fsListdir fuel path cap s = some (r, s')) :
    (listdirOut fuel path cap s r.2).length ≤ cap ∧ -1 ≤ r.1 ∧ r.1 ≤ cap := by
  unfold fsListdir at h
  unfold listdirOut
  have hlist := Fat.listOut_le fuel path cap s.fat
  split at h
  · next hm =>
    rw [if_pos hm]
    refine ⟨hlist, ?_⟩
    split at h
    · exact absurd h (by simp)
    · simp only [Option.some.injEq, Prod.mk.injEq] at h
      rw [← h.1]
      exact ⟨Int.le_refl _, by dsimp only; omega⟩
    · next out f hf =>
      simp only [Option.some.injEq, Prod.mk.injEq] at h
      rw [← h.1]
      dsimp only
      rw [Fat.listOut_eq hf] at hlist
      omega
  · next hm =>
    rw [if_neg hm]
    have hscan : ∀ dir, (listLoop s dir cap (List.range fsMax) []).length ≤ cap :=
      fun dir => listLoop_le (Nat.zero_le _)
    dsimp only at h
    split at h
    · simp only [Option.some.injEq, Prod.mk.injEq] at h
      rw [← h.1]
      have := hscan s.cwd
      exact ⟨this, by dsimp only; omega, by dsimp only; omega⟩
    · split at h
      · simp only [Option.some.injEq, Prod.mk.injEq] at h
        rw [← h.1]
        exact ⟨Nat.zero_le _, Int.le_refl _, by unfold fsBadpath; omega⟩
      · next dir _ =>
        simp only [Option.some.injEq, Prod.mk.injEq] at h
        rw [← h.1]
        have := hscan dir
        exact ⟨this, by dsimp only; omega, by dsimp only; omega⟩

/-- **A request** stores what fits. -/
theorem Request.run_fits {fuel : Nat} {q : Request} {s : FS} {r : (Int × Str) × FS}
    (h : q.run fuel s = some r) : Fitting q.buf r.1 := by
  cases q with
  | fread path cap =>
    rw [Request.run] at h
    split at h
    · obtain ⟨⟨⟨n, out⟩, f⟩, hx, rfl⟩ := Option.map_eq_some_iff.mp h
      obtain ⟨hout, hn⟩ := fatRead_fits hx
      refine ⟨hout, ?_⟩
      cases n with
      | none =>
        refine ⟨Int.le_refl _, ?_⟩
        show (-1 : Int) ≤ cap
        omega
      | some n =>
        have hle : (n : Int) ≤ cap := Int.ofNat_le.mpr (hn n rfl)
        exact ⟨(by omega : (-1 : Int) ≤ n), hle⟩
    · rw [← Option.some.inj h]
      exact fsFreadRam_fits path cap s
  | call c =>
    cases c with
    | listdir path cap =>
      obtain ⟨⟨⟨n, out⟩, s'⟩, hx, rfl⟩ := Option.map_eq_some_iff.mp h
      exact listdirOut_le hx
    | getcwd cap =>
      rw [← Option.some.inj h]
      exact fsGetcwd_fits s cap
    | freadRam path cap =>
      rw [← Option.some.inj h]
      exact fsFreadRam_fits path cap s
    | fwrite path buf =>
      obtain ⟨x, hx, rfl⟩ := Option.map_eq_some_iff.mp h
      rfl
    | chdir path =>
      obtain ⟨x, hx, rfl⟩ := Option.map_eq_some_iff.mp h
      rfl
    | mkdir arg =>
      rw [← Option.some.inj h]
      rfl
    | mountPart idx =>
      rw [← Option.some.inj h]
      rfl
    | unmount =>
      rw [← Option.some.inj h]
      rfl

/-! ## The `emit` helpers -/

/-- The position is in the buffer or all ones, and what was stored is in the buffer; or in front of
it, where `before` allows that. -/
structure Near (cap : Nat) (before : Prop) (mem : Nat → UInt8) (st : Nat × Out) : Prop where
  pos : st.1 ≤ cap ∨ st.1 = overflow
  mem : ∀ i, st.2.mem i ≠ mem i → i < cap ∨ (before ∧ i = overflow)

section Emit

variable {cap : Nat} (hcap : cap + 2 < 2 ^ 64) {before : Prop} {mem : Nat → UInt8}

theorem Near.put {pos : Nat} {o : Out} (h : Near cap before mem (pos, o)) (c : UInt8)
    (hpos : pos < cap ∨ (before ∧ pos = overflow)) (hroom : (pos + 1) % 2 ^ 64 ≤ cap) :
    Near cap before mem ((pos + 1) % 2 ^ 64, o.put pos c) := by
  refine ⟨Or.inl hroom, fun i hi => ?_⟩
  by_cases hip : i = pos
  · rw [hip]
    exact hpos
  · exact h.mem i (by simpa [Out.put, hip] using hi)

include hcap

theorem emitLoop_near : ∀ (cs : List UInt8) {pos : Nat} {o : Out}, Near cap before mem (pos, o) →
    Near cap before mem (emitLoop cap cs pos o)
  | [], _, _, h => h
  | c :: cs, pos, o, h => by
    rw [emitLoop]
    split
    · exact ⟨Or.inr rfl, h.mem⟩
    · next hlt =>
      have hmod : (pos + 1) % 2 ^ 64 = pos + 1 := Nat.mod_eq_of_lt (by omega)
      exact emitLoop_near cs (h.put c (Or.inl (by omega)) (by omega))

theorem emit_near {e : Emit} (he : (∃ v, e = .hex v) → before) {st : Nat × Out}
    (h : Near cap before mem st) : Near cap before mem (e.run cap st) := by
  obtain ⟨pos, o⟩ := st
  cases e with
  | str s => exact emitLoop_near hcap s h
  | dec v => exact emitLoop_near hcap _ h
  | hex v =>
    show Near cap before mem (emitHex cap v pos o)
    unfold emitHex
    split
    · exact ⟨Or.inr rfl, h.mem⟩
    · next hroom =>
      dsimp only
      -- the two digits are in the buffer, or the position was all ones and they wrap around
      have hover : overflow = 2 ^ 64 - 1 := rfl
      rcases h.pos with hpos | hpos
      · have hpos' : pos ≤ cap := hpos
        have h1 := h.put (hexDigit (v.toNat / 16 % 16)) (Or.inl (by omega)) (by omega)
        exact h1.put _ (Or.inl (by omega)) (by omega)
      · have hpos' : pos = overflow := hpos
        have h1 := h.put (hexDigit (v.toNat / 16 % 16)) (Or.inr ⟨he ⟨v, rfl⟩, hpos'⟩)
          (by omega)
        exact h1.put _ (Or.inl (by omega)) (by omega)

theorem emits_near : ∀ {es : List Emit} {st : Nat × Out}, ((∃ v, .hex v ∈ es) → before) →
    Near cap before mem st → Near cap before mem (emits cap es st)
  | [], _, _, h => h
  | e :: es, st, hes, h => by
    have hone := emit_near hcap (e := e)
      (fun ⟨v, he⟩ => hes ⟨v, by rw [he]; exact List.mem_cons_self⟩) h
    have hrest : (∃ v, .hex v ∈ es) → before := fun ⟨v, hv⟩ => hes ⟨v, List.mem_cons_of_mem e hv⟩
    show Near cap before mem (emits cap es (e.run cap st))
    exact emits_near hrest hone

theorem partLoop_near (hb : before) (mounted : Int) : ∀ {ps : List Part} {i : Nat} {st : Nat × Out},
    Near cap before mem st → Near cap before mem (partLoop cap mounted i ps st)
  | [], _, _, h => h
  | p :: ps, i, st, h => by
    have hline : Near cap before mem (emits cap (lineCalls mounted i p) st) :=
      emits_near hcap (fun _ => hb) h
    rw [partLoop]
    split
    · exact hline
    · exact partLoop_near hb mounted hline

end Emit

theorem emitStart_near (cap : Nat) (before : Prop) (mem : Nat → UInt8) :
    Near cap before mem (emitStart mem) :=
  ⟨Or.inl (Nat.zero_le _), fun _ h => absurd rfl h⟩

/-- The result of the call is no more than `cap`. -/
theorem Near.endPos {cap : Nat} {before : Prop} {mem : Nat → UInt8} {st : Nat × Out}
    (h : Near cap before mem st) : -22 ≤ endPos st.1 ∧ endPos st.1 ≤ cap := by
  unfold Kernel.endPos eInval
  rcases h.pos with hpos | hpos
  · split <;> omega
  · rw [if_pos hpos]
    omega

/-! ## Every call -/

/-- The buffer a call is given to store in. -/
def window (f : SyscallFrame) : Option (BitVec 64 × Nat) :=
  match sysNo f.rax with
  | .listdir => some (f.rsi, f.rdx.toNat)
  | .fread => some (f.rsi, f.rdx.toNat)
  | .getcwd => some (f.rdi, f.rsi.toNat)
  | .meminfo => some (f.rdi, f.rsi.toNat)
  | .lsmod => some (f.rdi, f.rsi.toNat)
  | .partlist => some (f.rdi, f.rsi.toNat)
  | _ => none

/-- What a call has made of memory is confined to its buffer, but for the byte in front of it where
`before` allows that; and it reports no more bytes than there are. -/
def Confined (before : Prop) (mem mem' : Memory) (rax : BitVec 64) :
    Option (BitVec 64 × Nat) → Prop
  | none => mem' = mem
  | some (p, cap) =>
    (∀ a, mem' a ≠ mem a → offset p a < cap ∨ (before ∧ a = p - 1)) ∧ rax.toInt ≤ cap

theorem toInt_answer {r : Int} (hlo : -22 ≤ r) (hhi : r ≤ 8192) :
    (BitVec.ofInt 64 r).toInt = r := by
  rw [BitVec.toInt_ofInt]
  exact Int.bmod_eq_of_le (by omega) (by omega)

/-- A call turned down for its arguments. -/
theorem confined_inval (before : Prop) (mem : Memory) (w : Option (BitVec 64 × Nat)) :
    Confined before mem mem (BitVec.ofInt 64 eInval) w := by
  cases w with
  | none => rfl
  | some w =>
    refine ⟨fun a ha => absurd rfl ha, ?_⟩
    have hneg : (BitVec.ofInt 64 eInval).toInt = -22 := by decide
    rw [hneg]
    omega

theorem confined_store {before : Prop} {mem : Memory} {p : BitVec 64} {cap : Nat} {r : Int}
    {bs : Str} (hcap : cap ≤ 8192) (hbs : bs.length ≤ cap) (hlo : -1 ≤ r) (hr : r ≤ cap) :
    Confined before mem (store mem p bs) (BitVec.ofInt 64 r) (some (p, cap)) := by
  refine ⟨fun a ha => Or.inl ?_, ?_⟩
  · by_contra hge
    exact ha (if_neg (by omega))
  · rw [toInt_answer (by omega) (by omega)]
    exact hr

theorem confined_out {before : Prop} {mem : Memory} {p : BitVec 64} {cap : Nat} {st : Nat × Out}
    (hcap : cap ≤ 512) (h : Near cap before (fromBuf mem p) st) :
    Confined before mem (storeOut p st.2) (BitVec.ofInt 64 (endPos st.1)) (some (p, cap)) := by
  have hself : ∀ a, fromBuf mem p (offset p a) = mem a := fun a => by
    show mem (p + BitVec.ofNat 64 (a - p).toNat) = mem a
    rw [BitVec.ofNat_toNat, BitVec.setWidth_eq, BitVec.add_comm, BitVec.sub_add_cancel]
  obtain ⟨hlo, hhi⟩ := h.endPos
  refine ⟨fun a ha => ?_, ?_⟩
  · refine (h.mem (offset p a) (by rwa [hself])).imp_right fun ⟨hb, hov⟩ => ⟨hb, ?_⟩
    have hsub : a - p = -1 := BitVec.eq_of_toNat_eq hov
    rw [← BitVec.sub_add_cancel a p, hsub, BitVec.add_comm, BitVec.sub_eq_add_neg]
  · rw [toInt_answer hlo (by omega)]
    exact hhi

theorem lsmodLoop_le {cap : Nat} : ∀ {ms : List Mem.Module} {out : Str}, out.length ≤ cap →
    (lsmodLoop cap ms out).length ≤ cap
  | [], _, h => h
  | m :: ms, out, h => by
    rw [lsmodLoop]
    split
    · exact h
    · refine lsmodLoop_le ?_
      simp only [List.length_append, List.length_map, List.length_singleton]
      omega

variable {fuel : Nat} {f : SyscallFrame} {mem mem' : Memory} {k k' : Statics} {rax : BitVec 64}

/-- A call that is a request. -/
theorem request_confined (before : Prop) {q : Request} {p : BitVec 64}
    (hq : request f mem = some (q, p)) {r : (Int × Str) × FS} (hr : q.run fuel k.fs = some r) :
    Confined before mem (store mem p r.1.2) (BitVec.ofInt 64 r.1.1) (window f) := by
  have hfit := Request.run_fits hr
  have hnone : q.buf = none → store mem p r.1.2 = mem := fun hbuf => by
    rw [hbuf] at hfit
    rw [show r.1.2 = [] from hfit, store_nil]
  have hsome : ∀ cap, q.buf = some cap → cap ≤ 8192 →
      Confined before mem (store mem p r.1.2) (BitVec.ofInt 64 r.1.1) (some (p, cap)) := by
    intro cap hbuf hcap
    rw [hbuf] at hfit
    exact confined_store hcap hfit.1 hfit.2.1 hfit.2.2
  unfold request at hq
  unfold window
  split at hq
  · next hno =>
    obtain ⟨path, -, he⟩ := Option.map_eq_some_iff.mp hq
    obtain ⟨rfl, rfl⟩ := Prod.mk.inj he
    rw [hno]
    exact hnone rfl
  · next hno =>
    obtain ⟨path, -, he⟩ := Option.map_eq_some_iff.mp hq
    obtain ⟨rfl, rfl⟩ := Prod.mk.inj he
    rw [hno]
    exact hnone rfl
  · next hno =>
    split at hq
    · exact absurd hq (by simp)
    · obtain ⟨path, -, he⟩ := Option.map_eq_some_iff.mp hq
      obtain ⟨rfl, rfl⟩ := Prod.mk.inj he
      rw [hno]
      exact hsome _ rfl (by omega)
  · next hno =>
    split at hq
    · exact absurd hq (by simp)
    · obtain ⟨rfl, rfl⟩ := Prod.mk.inj (Option.some.inj hq)
      rw [hno]
      exact hsome _ rfl (by omega)
  · next hno =>
    obtain ⟨rfl, rfl⟩ := Prod.mk.inj (Option.some.inj hq)
    rw [hno]
    refine hnone ?_
    split <;> rfl
  · next hno =>
    split at hq
    · exact absurd hq (by simp)
    · obtain ⟨path, -, he⟩ := Option.map_eq_some_iff.mp hq
      obtain ⟨rfl, rfl⟩ := Prod.mk.inj he
      rw [hno]
      exact hsome _ rfl (by omega)
  · next hno =>
    split at hq
    · exact absurd hq (by simp)
    · obtain ⟨path, -, he⟩ := Option.map_eq_some_iff.mp hq
      obtain ⟨rfl, rfl⟩ := Prod.mk.inj he
      rw [hno]
      exact hnone rfl
  · exact absurd hq (by simp)

/-- The same of a call that may not come back. -/
def Outcome.Confined (before : Prop) (mem : Memory) (w : Option (BitVec 64 × Nat)) : Outcome → Prop
  | .back rax mem' _ => Kernel.Confined before mem mem' rax w
  | _ => True

section Calls

variable {before : Prop}

theorem sysPuts_confined (s : BitVec 64) : (sysPuts s mem k).Confined before mem none := by
  unfold sysPuts
  dsimp only
  repeat' split
  all_goals exact rfl

theorem sysWrite_confined (s n : BitVec 64) : (sysWrite s n mem k).Confined before mem none := by
  unfold sysWrite
  split <;> exact rfl

theorem enterInit_confined (w : Option (BitVec 64 × Nat)) :
    (enterInit k).Confined before mem w := by
  unfold enterInit
  split <;> trivial

theorem sysRun_confined (name arg : BitVec 64) :
    (sysRun name arg mem k).Confined before mem none := by
  unfold sysRun
  dsimp only
  repeat' split
  all_goals first | exact enterInit_confined none | exact rfl | trivial

theorem sysMeminfo_confined (buf cap : BitVec 64) :
    (sysMeminfo buf cap mem k).Confined before mem (some (buf, cap.toNat)) := by
  unfold sysMeminfo
  split
  · exact confined_inval before mem (some (buf, cap.toNat))
  · have hnear : Near cap.toNat before (fromBuf mem buf)
        (emits cap.toNat (meminfoCalls k) (emitStart (fromBuf mem buf))) :=
      emits_near (by omega) (fun ⟨v, hv⟩ => absurd hv (by simp [meminfoCalls]))
        (emitStart_near cap.toNat before (fromBuf mem buf))
    exact confined_out (by omega) hnear

theorem sysLsmod_confined (buf cap : BitVec 64) :
    (sysLsmod buf cap mem k).Confined before mem (some (buf, cap.toNat)) := by
  unfold sysLsmod
  split
  · exact confined_inval before mem (some (buf, cap.toNat))
  · have hle : (execLsmod cap.toNat k.mods).length ≤ cap.toNat := lsmodLoop_le (Nat.zero_le _)
    exact confined_store (by omega) hle (by omega) (by omega)

theorem sysParts_confined (hb : before) (buf cap : BitVec 64) :
    (sysParts buf cap mem k).Confined before mem (some (buf, cap.toNat)) := by
  unfold sysParts
  split
  · exact confined_inval before mem (some (buf, cap.toNat))
  · exact confined_out (by omega) (partLoop_near (by omega) hb k.fs.mountedIdx
      (emitStart_near cap.toNat before (fromBuf mem buf)))

end Calls

/-- **A call that returns has stored to its buffer and nowhere else**, and what it reports fits
there; but `SYS_PARTLIST` may have changed the byte in front of the buffer. -/
theorem dispatch_confined (h : syscallDispatcher fuel f mem k = some (.back rax mem' k')) :
    Confined (sysNo f.rax = .partlist) mem mem' rax (window f) := by
  cases hq : request f mem with
  | some q =>
    rw [dispatch_request hq] at h
    obtain ⟨r, hr, he⟩ := Option.map_eq_some_iff.mp h
    obtain ⟨rfl, rfl, -⟩ := Outcome.back.inj he
    exact request_confined _ hq hr
  | none =>
    have hturned : syscallDispatcher fuel f mem k = some (answer eInval mem k) →
        Confined (sysNo f.rax = .partlist) mem mem' rax (window f) := by
      intro hr
      rw [hr] at h
      obtain ⟨rfl, rfl, -⟩ := Outcome.back.inj (Option.some.inj h)
      exact confined_inval _ mem _
    have hcase : ∀ {o : Outcome}, syscallDispatcher fuel f mem k = some o →
        o.Confined (sysNo f.rax = .partlist) mem (window f) →
        Confined (sysNo f.rax = .partlist) mem mem' rax (window f) := by
      intro o ho hc
      rw [ho] at h
      rw [Option.some.inj h] at hc
      exact hc
    unfold window
    unfold window at hturned hcase
    unfold syscallDispatcher at hturned hcase
    unfold request at hq
    cases hno : sysNo f.rax <;> rw [hno] at hq hturned hcase <;> dsimp only at hq hturned hcase ⊢
    case puts => exact hcase rfl (sysPuts_confined _)
    case getc => exact hcase rfl trivial
    case info => exact hcase rfl rfl
    case reboot => exact hcase rfl trivial
    case poweroff => exact hcase rfl trivial
    case exit => exact hcase rfl (enterInit_confined _)
    case write => exact hcase rfl (sysWrite_confined _ _)
    case chdir => exact hturned (sysChdir_turned (noPath hq))
    case mkdir => exact hturned (congrArg some (sysMkdir_turned (noPath hq)))
    case listdir => exact hturned (sysListdir_turned (noArgs hq))
    case getcwd =>
      refine hturned (congrArg some ?_)
      unfold sysGetcwd
      split at hq
      · next hc => rw [if_pos hc]
      · exact absurd hq (by simp)
    case setcolor => exact hcase rfl rfl
    case meminfo => exact hcase rfl (sysMeminfo_confined _ _)
    case run => exact hcase rfl (sysRun_confined _ _)
    case lsmod => exact hcase rfl (sysLsmod_confined _ _)
    case partlist => exact hcase rfl (sysParts_confined rfl _ _)
    case mount => exact absurd hq (by simp)
    case fread => exact hturned (sysFread_turned (noArgs hq))
    case goto => exact hcase rfl rfl
    case fwrite => exact hturned (sysFwrite_turned (noArgs hq))
    case clear => exact hcase rfl rfl
    case other => exact hcase rfl rfl

/-- **In any run**, a call that came back has stored to its buffer and nowhere else, and what it
reported fits there; but `SYS_PARTLIST` may have changed the byte in front of the buffer. -/
theorem calls_confined {h : Hardware} {rs : List (Event × Reply)} {s : Sys}
    (hrun : Allows Steps (kernelMain h) rs s) {f : SyscallFrame} {mem mem' : Memory}
    {rax : BitVec 64} (hmem : (.call f mem, .back rax mem') ∈ rs) :
    Confined (sysNo f.rax = .partlist) mem mem' rax (window f) := by
  obtain ⟨t, t', hs⟩ := hrun.mem hmem
  generalize he : Event.call f mem = e at hs
  generalize ho : Reply.back rax mem' = o at hs
  cases hs.cases with
  | call fuel f' mem₀ out hcpu hout =>
    obtain ⟨rfl, rfl⟩ := Event.call.inj he
    cases out with
    | back rax₁ mem₁ k₁ =>
      obtain ⟨rfl, rfl⟩ := Reply.back.inj ho
      exact dispatch_confined hout
    | _ => exact absurd ho (by simp [Outcome.reply])
  | _ => exact absurd he (by simp)

/-- `lsmod` into 64 bytes. -/
def lsmodFrame : SyscallFrame := { plainFrame 14 with rdi := 0x1000, rsi := 64 }

theorem calls_confined_lsmod : ∃ rax mem' s,
    Allows Steps (kernelMain sampleHardware) [(.call lsmodFrame fun _ => 0, .back rax mem')] s ∧
      (∀ a, mem' a ≠ 0 → offset 0x1000 a < 64) ∧ rax.toInt ≤ 64 := by
  obtain ⟨m, hm⟩ := sample_start
  have hrun : ∃ rax mem' s,
      Allows Steps (kernelMain sampleHardware)
        [(.call lsmodFrame fun _ => 0, .back rax mem')] s := by
    rw [hm]
    exact ⟨_, _, _, .cons ⟨0, rfl⟩ (.nil _)⟩
  obtain ⟨rax, mem', s, hs⟩ := hrun
  obtain ⟨hmem, hrax⟩ := calls_confined hs List.mem_cons_self
  refine ⟨rax, mem', s, hs, fun a ha => (hmem a ha).resolve_right fun hc => ?_, hrax⟩
  exact absurd hc.1 (by decide)

end InaneOS.Kernel
