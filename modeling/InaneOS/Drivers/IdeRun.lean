import InaneOS.Drivers.Ata
import InaneOS.Lib.Simulate

/-!
# Runs of the disk driver

What a caller of `ide_read` and `ide_write` sees of a whole run. The state of the
abstract side is the `Vol` of `InaneOS.Fat.Volume`, whose `ideRead` and `ideWrite` the
file system is proved with: `ideRun_refines` ties the two together.
-/

namespace InaneOS.Drivers

open InaneOS.Lib
open InaneOS.Fat (Sector Drive Disk Vol)

/-- A transfer the kernel asks for. -/
inductive Xfer
  | read (lba : Nat)
  | write (lba : Nat) (buf : Sector)

/-- What the caller gets: `none` for `-1`, else the bytes read. -/
def Xfer.onDrive (s : Ide Ata) : Xfer → Option (List UInt8) × Ide Ata
  | .read lba => ideRead ataBus lba s
  | .write lba buf =>
    let (ok, s) := ideWrite ataBus lba buf s
    (if ok then some [] else none, s)

/-- The same transfer on the disk the file system works with. -/
def Xfer.onVol (f : Vol) : Xfer → Option (List UInt8) × Vol
  | .read lba =>
    match Fat.ideRead lba f with
    | none => (none, f)
    | some f => (some (bytesOf f.sec), f)
  | .write lba buf =>
    let (ok, f) := Fat.ideWrite lba buf f
    (if ok then some [] else none, f)

theorem onVol_read (lba : Nat) (f : Vol) : (Xfer.read lba).onVol f =
    if f.disk.drive.reads lba then
      (some (bytesOf (f.disk.data lba)), { f with sec := f.disk.data lba })
    else (none, f) := by
  show (match Fat.ideRead lba f with | none => _ | some f => _) = _
  unfold Fat.ideRead
  cases f.disk.drive.reads lba <;> rfl

theorem onVol_write (lba : Nat) (buf : Sector) (f : Vol) : (Xfer.write lba buf).onVol f =
    (if f.disk.drive.writes lba then some [] else none,
      { f with disk := f.disk.put (lba, buf) }) := rfl

theorem onDrive_write (lba : Nat) (buf : Sector) (s : Ide Ata) : (Xfer.write lba buf).onDrive s =
    (if (ideWrite ataBus lba buf s).1 then some [] else none, (ideWrite ataBus lba buf s).2) := rfl

/-- The bytes of the disk are those of the medium. -/
def Holds (s : Ide Ata) (d : Disk) : Prop := ∀ l, bytesOf (d.data l) = bytesOf (s.dev.medium l)

/-- The driver and a prompt drive, and the disk they amount to. -/
structure Backs (s : Ide Ata) (f : Vol) : Prop where
  size : s.total ≤ 2 ^ 48
  prompt : Prompt s.dev
  drive : f.disk.drive = s.drive
  holds : Holds s f.disk

/-- One transfer is the transfer of the abstract disk. -/
theorem onDrive_refines {s : Ide Ata} {f : Vol} (h : Backs s f) (x : Xfer) :
    (x.onDrive s).1 = (x.onVol f).1 ∧ Backs (x.onDrive s).2 (x.onVol f).2 := by
  cases x with
  | read lba =>
    obtain ⟨hkept, hmedium, hok, hprompt⟩ := ideRead_spec h.size lba
    have hsome := hprompt h.prompt
    have hback : ∀ f' : Vol, f'.disk = f.disk → Backs (ideRead ataBus lba s).2 f' := by
      intro f' hf'
      refine ⟨by rw [hkept.total]; exact h.size, hkept.dev.prompt h.prompt, ?_, fun l => ?_⟩
      · rw [hf', h.drive, hkept.drive]
      · rw [hf', hmedium, h.holds l]
    rw [onVol_read, h.drive]
    cases hr : (ideRead ataBus lba s).1 with
    | none =>
      rw [hr] at hsome
      rw [if_neg (by rw [← hsome]; simp)]
      exact ⟨hr, hback f rfl⟩
    | some bs =>
      obtain ⟨hyes, hbs⟩ := hok bs hr
      rw [if_pos hyes]
      refine ⟨?_, hback _ rfl⟩
      rw [h.holds lba, ← hbs]
      exact hr
  | write lba buf =>
    obtain ⟨hkept, hstored, hok, hprompt⟩ := ideWrite_spec h.size lba buf
    have hres := hprompt h.prompt
    rw [onVol_write, onDrive_write, h.drive, hres]
    refine ⟨rfl, by rw [hkept.total]; exact h.size, hkept.dev.prompt h.prompt, ?_, fun l => ?_⟩
    · rw [hkept.drive]
      exact h.drive
    · dsimp only
      rw [Disk.put_data, h.drive]
      cases hw : s.drive.writes lba with
      | true =>
        obtain ⟨-, hmedium⟩ := hok (hres.trans hw)
        rw [hmedium, bytesOf_stored, apply_ite bytesOf, h.holds l]
        simp
      | false =>
        have hmedium := hstored.resolve_right fun hc => absurd hc.1 (by rw [hw]; simp)
        rw [hmedium, if_neg (by simp), h.holds l]

/-- **The driver refines the disk of the file system**: over a drive that is prompt, every sequence
of transfers has the result it has there, for the sectors that can be transferred and for those
that cannot. -/
theorem ideRun_refines {s : Ide Ata} {f : Vol} (h : Backs s f) (xs : List Xfer) :
    (replies Xfer.onDrive xs s).1 = (replies Xfer.onVol xs f).1 ∧
      Backs (replies Xfer.onDrive xs s).2 (replies Xfer.onVol xs f).2 :=
  replies_simulate (R := Backs) (fun _ _ x h (_ : True) => onDrive_refines h x) h fun _ _ => trivial

/-- A drive of four sectors that is busy for `delays`. -/
def smallDrive (delays : List Nat) (medium : Nat → Sector) : Ata where
  drive := Drive.ofSize 4
  medium := medium
  ident i := if i = 83 then 0x400 else if i = 100 then 4 else 0
  select := 0
  count := ⟨0, 0⟩
  lba0 := ⟨0, 0⟩
  lba1 := ⟨0, 0⟩
  lba2 := ⟨0, 0⟩
  busy := 0
  delays := delays
  phase := .ready

def smallIde (delays : List Nat) : Ide Ata := ⟨4, true, smallDrive delays fun _ _ => 0⟩

/-- The disk `d`, nothing mounted. -/
def plainVol (d : Disk) : Vol := ⟨⟨0, 0, 0, 0, 0, 0⟩, d, fun _ => 0, 0, [], false, 2⟩

theorem ideRun_refines_small :
    (replies Xfer.onDrive [.write 1 fun _ => 7, .read 1, .read 4] (smallIde [3, 0, 50])).1 =
      [some [], some (List.replicate 512 7), none] := by
  have hb : Backs (smallIde [3, 0, 50])
      (plainVol ⟨(smallIde [3, 0, 50]).drive, fun _ _ => 0, []⟩) :=
    ⟨by decide, ⟨by decide, by decide⟩, rfl, fun _ => rfl⟩
  rw [(ideRun_refines hb _).1]
  decide +kernel

/-! ## Drives that keep the driver waiting -/

/-- What a disk may answer whose transfers can fail at any time. A read that succeeds gives the
contents; a write that succeeds stores the sector, and one that fails stores it or does not. -/
inductive FlakyStep (v : Drive) : (Nat → List UInt8) → Xfer → Option (List UInt8) →
    (Nat → List UInt8) → Prop
  | noRead (m) (lba) : FlakyStep v m (.read lba) none m
  | read (m) (lba) : v.reads lba = true → FlakyStep v m (.read lba) (some (m lba)) m
  | noWrite (m) (lba) (buf) : FlakyStep v m (.write lba buf) none m
  | lateWrite (m) (lba) (buf) : v.writes lba = true →
      FlakyStep v m (.write lba buf) none fun l => if l = lba then bytesOf buf else m l
  | write (m) (lba) (buf) : v.writes lba = true →
      FlakyStep v m (.write lba buf) (some []) fun l => if l = lba then bytesOf buf else m l

/-- The driver with the contents of its medium. -/
structure Shows (v : Drive) (s : Ide Ata) (m : Nat → List UInt8) : Prop where
  size : s.total ≤ 2 ^ 48
  drive : s.drive = v
  holds : ∀ l, m l = bytesOf (s.dev.medium l)

theorem onDrive_flaky {v : Drive} {s : Ide Ata} {m : Nat → List UInt8} (h : Shows v s m)
    (x : Xfer) :
    ∃ m', FlakyStep v m x (x.onDrive s).1 m' ∧ Shows v (x.onDrive s).2 m' := by
  cases x with
  | read lba =>
    obtain ⟨hkept, hmedium, hok, -⟩ := ideRead_spec h.size lba
    have hshows : Shows v (ideRead ataBus lba s).2 m :=
      ⟨by rw [hkept.total]; exact h.size, by rw [hkept.drive]; exact h.drive,
        fun l => by rw [hmedium]; exact h.holds l⟩
    refine ⟨m, ?_, hshows⟩
    show FlakyStep v m (.read lba) (ideRead ataBus lba s).1 m
    cases hr : (ideRead ataBus lba s).1 with
    | none => exact .noRead m lba
    | some bs =>
      obtain ⟨hyes, hbs⟩ := hok bs hr
      rw [hbs, ← h.holds lba]
      exact .read m lba (by rw [← h.drive]; exact hyes)
  | write lba buf =>
    obtain ⟨hkept, hstored, hok, -⟩ := ideWrite_spec h.size lba buf
    have hshows : ∀ m', (∀ l, m' l = bytesOf ((ideWrite ataBus lba buf s).2.dev.medium l)) →
        Shows v (ideWrite ataBus lba buf s).2 m' := fun m' hm' =>
      ⟨by rw [hkept.total]; exact h.size, by rw [hkept.drive]; exact h.drive, hm'⟩
    have hput : (ideWrite ataBus lba buf s).2.dev.medium = stored lba buf s.dev.medium →
        Shows v (ideWrite ataBus lba buf s).2 fun l => if l = lba then bytesOf buf else m l :=
      fun hmedium => hshows _ fun l => by rw [hmedium, bytesOf_stored, h.holds l]
    rw [onDrive_write]
    cases hr : (ideWrite ataBus lba buf s).1 with
    | true =>
      obtain ⟨hyes, hmedium⟩ := hok hr
      exact ⟨_, .write m lba buf (by rw [← h.drive]; exact hyes), hput hmedium⟩
    | false =>
      rcases hstored with hmedium | ⟨hyes, hmedium⟩
      · exact ⟨m, .noWrite m lba buf, hshows m fun l => by rw [hmedium]; exact h.holds l⟩
      · exact ⟨_, .lateWrite m lba buf (by rw [← h.drive]; exact hyes), hput hmedium⟩

/-- **Whatever the drive's delays**, a run of the driver is a run of a disk whose transfers may
fail: no read gives wrong bytes, no sector changes that was not written, and a write reported as
done is done. -/
theorem ideRun_flaky {v : Drive} {s : Ide Ata} {m : Nat → List UInt8} (h : Shows v s m)
    (xs : List Xfer) :
    ∃ m', Allows (FlakyStep v) m (xs.zip (replies Xfer.onDrive xs s).1) m' ∧
      Shows v (replies Xfer.onDrive xs s).2 m' :=
  allows_of_step (R := Shows v) (fun _ _ x h => onDrive_flaky h x) h

/-- A drive that is still busy when the driver gives up. -/
theorem ideRun_flaky_slow : ∃ m', Allows (FlakyStep (smallIde [200000]).drive)
    (fun _ => bytesOf fun _ => 0)
      ([.write 1 fun _ => 7, .read 1].zip
        (replies Xfer.onDrive [.write 1 fun _ => 7, .read 1] (smallIde [200000])).1) m' ∧
    Shows (smallIde [200000]).drive
      (replies Xfer.onDrive [.write 1 fun _ => 7, .read 1] (smallIde [200000])).2 m' :=
  ideRun_flaky ⟨by decide, rfl, fun _ => rfl⟩ _

end InaneOS.Drivers
