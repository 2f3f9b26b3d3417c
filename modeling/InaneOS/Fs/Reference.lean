import InaneOS.Fs.Invariant

/-!
# The file server as a tree

What the RAM file system is for, without slots and parent indices: a current
directory and the items in the order of their creation, each under its absolute
list of components. An operation that fails changes nothing (`Tree.run_error`).
`Refine` shows that the node table behaves like this tree.
-/

namespace InaneOS.Fs

open InaneOS.Fat

/-! ## The reference model -/

inductive Item
  | directory
  | file (bytes : Str)
deriving DecidableEq

/-- The current directory, and the items in creation order; the root is among them. -/
structure Tree where
  cwd : List Str
  items : List (List Str × Item)

namespace Tree

def init : Tree := ⟨[], [([], .directory)]⟩

def lookup (t : Tree) (p : List Str) : Option Item :=
  (t.items.find? fun e => e.1 = p).map Prod.snd

/-- Follow components from `cur`: `.` stays, `..` goes up and stays at the root, and what
is not the last one must be a directory. -/
def go (t : Tree) : List Str → List Str → Option (List Str)
  | cur, [] => some cur
  | cur, c :: cs =>
    if c = [dot] then t.go cur cs
    else if c = [dot, dot] then t.go cur.dropLast cs
    else
      match t.lookup (cur ++ [c]) with
      | none => none
      | some .directory => t.go (cur ++ [c]) cs
      | some (.file _) => if cs = [] then some (cur ++ [c]) else none

def find (t : Tree) (path : Str) : Option (List Str) :=
  t.go (if path.head? = some slash then [] else t.cwd) (comps path)

def findDir (t : Tree) (path : Str) : Option (List Str) :=
  match t.find path with
  | none => none
  | some p => if t.lookup p = some .directory then some p else none

/-- The directory and the name a path speaks of: the name is what follows the last
slash, and without one the directory is the current one. -/
def split (t : Tree) (path : Str) : Option (List Str × Str) :=
  match lastSlash path 0 none with
  | none => some (t.cwd, path)
  | some last => (t.findDir (path.take (last + 1))).map fun d => (d, path.drop (last + 1))

/-- Not a name for an item. -/
def badName (nm : Str) : Bool := nm == [] || nm == [dot] || nm == [dot, dot]

def mkdir (t : Tree) (arg : Str) : Int × Tree :=
  if arg = [] then (fsUsage, t)
  else
    match t.split arg with
    | none => (fsBadpath, t)
    | some (d, nm) =>
      if badName nm then (fsBadname, t)
      else if (t.lookup (d ++ [nm])).isSome then (fsExists, t)
      else if t.items.length ≥ 64 then (fsFull, t)
      else (fsOk, { t with items := t.items ++ [(d ++ [nm], .directory)] })

def fwrite (t : Tree) (path buf : Str) : Int × Tree :=
  if path = [] then (fsBadpath, t)
  else if buf.length > 4096 then (fsFull, t)
  else
    match t.split path with
    | none => (fsBadpath, t)
    | some (d, nm) =>
      if badName nm then (fsBadname, t)
      else
        match t.lookup (d ++ [nm]) with
        | some .directory => (fsBadpath, t)
        | some (.file _) =>
          (fsOk, { t with items := t.items.map fun e =>
            if e.1 = d ++ [nm] then (e.1, .file buf) else e })
        | none =>
          if t.items.length ≥ 64 then (fsFull, t)
          else (fsOk, { t with items := t.items ++ [(d ++ [nm], .file buf)] })

def fread (t : Tree) (path : Str) (cap : Nat) : Int × Str :=
  match t.find path with
  | none => (-1, [])
  | some p =>
    match t.lookup p with
    | some (.file bytes) => ((bytes.take cap).length, bytes.take cap)
    | _ => (-1, [])

def chdir (t : Tree) (path : Str) : Int × Tree :=
  if path = [] then (fsOk, { t with cwd := [] })
  else
    match t.findDir path with
    | none => (fsBadpath, t)
    | some d => (fsOk, { t with cwd := d })

/-- The children of a directory in creation order. -/
def children (t : Tree) (d : List Str) : List (Str × Item) :=
  t.items.filterMap fun e => if e.1 ≠ [] ∧ e.1.dropLast = d then some (e.1.getLastD [], e.2)
    else none

/-- One line per child, a directory marked with a slash, up to the first one whose name
and two bytes more exceed the room left. -/
def lines (cap : Nat) : List (Str × Item) → Str → Str
  | [], out => out
  | (nm, it) :: es, out =>
    if nm.length + 2 + out.length > cap then out
    else lines cap es (out ++ nm ++ (if it = .directory then [slash] else []) ++ [10])

def listdir (t : Tree) (path : Str) (cap : Nat) : Int × Str :=
  match if path = [] then some t.cwd else t.findDir path with
  | none => (fsBadpath, [])
  | some d => ((lines cap (t.children d) []).length, lines cap (t.children d) [])

/-- The components with a slash before each, as long as one and a NUL fit. -/
def slashed (cap : Nat) : List Str → Str → Bool × Str
  | [], out => (true, out)
  | nm :: nms, out =>
    if nm.length + 2 + out.length > cap then (false, out) else slashed cap nms (out ++ slash :: nm)

def getcwd (t : Tree) (cap : Nat) : Int × Str :=
  if cap < 2 then (fsBadpath, [])
  else if t.cwd = [] then (1, [slash, 0])
  else
    match slashed cap t.cwd [] with
    | (false, out) => (fsBadpath, out)
    | (true, out) => (out.length, out ++ [0])

/-- One call on the tree; there is nothing to mount here. -/
def run (t : Tree) : Call → (Int × Str) × Tree
  | .mkdir arg => (((t.mkdir arg).1, []), (t.mkdir arg).2)
  | .fwrite path buf => (((t.fwrite path buf).1, []), (t.fwrite path buf).2)
  | .chdir path => (((t.chdir path).1, []), (t.chdir path).2)
  | .listdir path cap => (t.listdir path cap, t)
  | .getcwd cap => (t.getcwd cap, t)
  | .freadRam path cap => (t.fread path cap, t)
  | .mountPart _ => ((fsBadpath, []), t)
  | .unmount => ((0, []), t)

def runAll (t : Tree) : List Call → List (Int × Str) × Tree
  | [] => ([], t)
  | c :: cs => ((t.run c).1 :: ((t.run c).2.runAll cs).1, ((t.run c).2.runAll cs).2)

/-- An error changes nothing. -/
theorem run_error (t : Tree) (c : Call) (h : (t.run c).1.1 < 0) : (t.run c).2 = t := by
  cases c with
  | mkdir arg =>
    simp only [run, mkdir] at h ⊢
    repeat' split
    all_goals first | rfl | simp_all [fsOk]
  | fwrite path buf =>
    simp only [run, fwrite] at h ⊢
    repeat' split
    all_goals first | rfl | simp_all [fsOk]
  | chdir path =>
    simp only [run, chdir] at h ⊢
    repeat' split
    all_goals first | rfl | simp_all [fsOk]
  | listdir path cap => rfl
  | getcwd cap => rfl
  | freadRam path cap => rfl
  | mountPart idx => rfl
  | unmount => rfl

end Tree

end InaneOS.Fs
