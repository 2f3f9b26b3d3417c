import InaneOS.Lib.Checked

/-!
# The editor: `user/keo.c`

The buffer is 256 lines of 256 characters with a length each, of which the first
`nlines` are the text. Characters behind a line's length are left over from earlier
edits. Every access to `lines`, `lens`, `fname`, `cmd`, `msg` and the row that `draw`
fills is checked: a function of the model returns nothing if the code would index out of
bounds. The counters are C `int`s and stay far below their limits, so they are integers
here.

`sys_fread`, `sys_fwrite` and `sys_getc` are the outside: a run is given what they answer.
-/

namespace InaneOS.User

open InaneOS.Lib

/-- `lines` and `lens`. -/
structure Text where
  lines : Int → Int → UInt8
  lens : Int → Int

inductive Mode
  | normal
  | insert
  | cmd
  deriving DecidableEq

/-- The statics of `keo.c`. -/
structure Keo where
  text : Text
  nlines : Int
  cx : Int
  cy : Int
  top : Int
  dirty : Bool
  fname : Int → UInt8
  mode : Mode
  cmd : Int → UInt8
  cmdlen : Int
  msg : Int → UInt8
  pendD : Bool
  pendG : Bool

/-! ## The arrays -/

/-- `lens[i]` -/
def Text.len (t : Text) (i : Int) : Option Int := getAt 256 t.lens i

/-- `lens[i] = v` -/
def Text.setLen (t : Text) (i v : Int) : Option Text := do
  let lens ← setAt 256 t.lens i v
  some { t with lens := lens }

/-- `lines[i][j]` -/
def Text.char (t : Text) (i j : Int) : Option UInt8 := do
  let line ← getAt 256 t.lines i
  getAt 256 line j

/-- `lines[i][j] = c` -/
def Text.setChar (t : Text) (i j : Int) (c : UInt8) : Option Text := do
  let line ← getAt 256 t.lines i
  let line ← setAt 256 line j c
  let lines ← setAt 256 t.lines i line
  some { t with lines := lines }

/-- `lines[di][dj + t] = lines[si][sj + t]` for `t` from 0 to `n - 1`. -/
def copyChars : Nat → Int → Int → Int → Int → Text → Option Text
  | 0, _, _, _, _, t => some t
  | n + 1, di, dj, si, sj, t => do
    let c ← t.char si sj
    let t ← t.setChar di dj c
    copyChars n di (dj + 1) si (sj + 1) t

/-- `lines[i][j] = lines[i][j - 1]` for `n` columns, from `j` down. -/
def slideRight : Nat → Int → Int → Text → Option Text
  | 0, _, _, t => some t
  | n + 1, i, j, t => do
    let c ← t.char i (j - 1)
    let t ← t.setChar i j c
    slideRight n i (j - 1) t

/-- The characters of line `src` and its length to line `dst`: the body of the loops over
lines. -/
def copyLine (dst src : Int) (t : Text) : Option Text := do
  let m ← t.len src
  let t ← copyChars m.toNat dst 0 src 0 t
  let m ← t.len src
  t.setLen dst m

/-- `n` lines move up by one, from line `i + 1` on. -/
def shiftUp : Nat → Int → Text → Option Text
  | 0, _, t => some t
  | n + 1, i, t => do
    let t ← copyLine i (i + 1) t
    shiftUp n (i + 1) t

/-- `n` lines move down by one, the last of them to line `i`. -/
def shiftDown : Nat → Int → Text → Option Text
  | 0, _, t => some t
  | n + 1, i, t => do
    let t ← copyLine i (i - 1) t
    shiftDown n (i - 1) t

/-! ## The cursor and the message -/

def clamp (k : Keo) : Option Keo := do
  let cy := if k.cy < 0 then 0 else k.cy
  let cy := if cy > k.nlines - 1 then k.nlines - 1 else cy
  let cx := if k.cx < 0 then 0 else k.cx
  let m ← k.text.len cy
  let cx := if cx > m then m else cx
  let top := if k.top > cy then cy else k.top
  let top := if top < cy - 22 then cy - 22 else top
  let top := if top < 0 then 0 else top
  some { k with cy := cy, cx := cx, top := top }

/-- The loop of `set_msg`, from index `i` on. -/
def setMsgLoop : List UInt8 → Int → (Int → UInt8) → Option (Int × (Int → UInt8))
  | [], i, msg => some (i, msg)
  | c :: cs, i, msg =>
    if i < 79 then do
      let msg ← setAt 80 msg i c
      setMsgLoop cs (i + 1) msg
    else some (i, msg)

/-- `set_msg(s)` for the bytes `s` before the NUL. -/
def setMsg (s : List UInt8) (k : Keo) : Option Keo := do
  let (i, msg) ← setMsgLoop s 0 k.msg
  let msg ← setAt 80 msg i 0
  some { k with msg := msg }

/-! ## Editing -/

def delChar (k : Keo) : Option Keo := do
  let m ← k.text.len k.cy
  if k.cx < m then
    let t ← copyChars (m - 1 - k.cx).toNat k.cy k.cx k.cy (k.cx + 1) k.text
    let t ← t.setLen k.cy (m - 1)
    some { k with text := t, dirty := true }
  else some k

def delLineAt (i : Int) (k : Keo) : Option Keo := do
  let t ← shiftUp (k.nlines - 1 - i).toNat i k.text
  some { k with text := t, nlines := k.nlines - 1 }

def delLine (k : Keo) : Option Keo :=
  if k.nlines ≤ 1 then do
    let t ← k.text.setLen 0 0
    some { k with text := t, cx := 0, dirty := true }
  else do
    let k ← delLineAt k.cy k
    some { k with dirty := true }

/-- "full" -/
def full : List UInt8 := [102, 117, 108, 108]

def openLine (below : Bool) (k : Keo) : Option Keo :=
  if k.nlines ≥ 256 then setMsg full k
  else do
    let i := if below then k.cy + 1 else k.cy
    let t ← shiftDown (k.nlines - i).toNat k.nlines k.text
    let t ← t.setLen i 0
    some { k with
      text := t, nlines := k.nlines + 1, cy := i, cx := 0, dirty := true, mode := .insert }

/-- Enter in insert mode. -/
def enter (k : Keo) : Option Keo :=
  if k.nlines ≥ 256 then setMsg full k
  else do
    let t ← shiftDown (k.nlines - (k.cy + 1)).toNat k.nlines k.text
    let m ← t.len k.cy
    let t ← copyChars (m - k.cx).toNat (k.cy + 1) 0 k.cy k.cx t
    let t ← t.setLen (k.cy + 1) (m - k.cx)
    let t ← t.setLen k.cy k.cx
    some { k with text := t, nlines := k.nlines + 1, cy := k.cy + 1, cx := 0, dirty := true }

/-- Backspace in insert mode. -/
def backspace (k : Keo) : Option Keo :=
  if k.cx > 0 then delChar { k with cx := k.cx - 1 }
  else if k.cy > 0 then do
    let pl ← k.text.len (k.cy - 1)
    let m ← k.text.len k.cy
    if pl + m < 256 then
      let t ← copyChars m.toNat (k.cy - 1) pl k.cy 0 k.text
      let t ← t.setLen (k.cy - 1) (pl + m)
      let k ← delLineAt k.cy { k with text := t }
      some { k with cy := k.cy - 1, cx := pl, dirty := true }
    else some k
  else some k

/-- A printable character in insert mode. -/
def insertChar (c : UInt8) (k : Keo) : Option Keo := do
  let m ← k.text.len k.cy
  if m < 255 then
    let t ← slideRight (m - k.cx).toNat k.cy m k.text
    let t ← t.setChar k.cy k.cx c
    let t ← t.setLen k.cy (m + 1)
    some { k with text := t, cx := k.cx + 1, dirty := true }
  else some k

/-! ## Keys -/

def keyUp : Int := 0x80
def keyDown : Int := 0x81
def keyLeft : Int := 0x82
def keyRight : Int := 0x83
def keyDel : Int := 0x84

/-- The pending `d` or `g` is forgotten after any other key: the end of `normal_key`. -/
def forget (c : Int) (k : Keo) : Keo :=
  { k with
    pendD := if c = 100 then k.pendD else false
    pendG := if c = 103 then k.pendG else false }

/-- The chain of tests in `normal_key`; `true` comes with the keys that return at once. -/
def normalChain (c : Int) (k : Keo) : Option (Bool × Keo) :=
  if c = 104 ∨ c = keyLeft then
    some (false, if k.cx > 0 then { k with cx := k.cx - 1 } else k)
  else if c = 108 ∨ c = keyRight then do
    let m ← k.text.len k.cy
    some (false, if k.cx < m then { k with cx := k.cx + 1 } else k)
  else if c = 106 ∨ c = keyDown then
    some (false, if k.cy < k.nlines - 1 then { k with cy := k.cy + 1 } else k)
  else if c = 107 ∨ c = keyUp then
    some (false, if k.cy > 0 then { k with cy := k.cy - 1 } else k)
  else if c = 105 then some (false, { k with mode := .insert })
  else if c = 97 then do
    let m ← k.text.len k.cy
    some (false, { (if k.cx < m then { k with cx := k.cx + 1 } else k) with mode := .insert })
  else if c = 65 then do
    let m ← k.text.len k.cy
    some (false, { k with cx := m, mode := .insert })
  else if c = 111 then do
    let k ← openLine true k
    some (false, k)
  else if c = 79 then do
    let k ← openLine false k
    some (false, k)
  else if c = 120 ∨ c = keyDel then do
    let k ← delChar k
    some (false, k)
  else if c = 100 then
    if k.pendD then do
      let k ← delLine k
      some (false, { k with pendD := false })
    else some (true, { k with pendD := true })
  else if c = 103 then
    if k.pendG then some (false, { k with cy := 0, pendG := false })
    else some (true, { k with pendG := true })
  else if c = 71 then some (false, { k with cy := k.nlines - 1 })
  else if c = 48 then some (false, { k with cx := 0 })
  else if c = 36 then do
    let m ← k.text.len k.cy
    some (false, { k with cx := if m ≠ 0 then m - 1 else 0 })
  else if c = 58 then do
    let cmd ← setAt 128 k.cmd 0 0
    some (false, { k with mode := .cmd, cmdlen := 0, cmd := cmd })
  else some (false, k)

def normalKey (c : Int) (k : Keo) : Option Keo := do
  let (done, k) ← normalChain c k
  some (if done then k else forget c k)

def insertKey (c : Int) (k : Keo) : Option Keo :=
  if c = 27 then do
    let k := { k with mode := Mode.normal }
    let m ← k.text.len k.cy
    some (if k.cx > m then { k with cx := m } else k)
  else if c = keyUp ∨ c = keyDown ∨ c = keyLeft ∨ c = keyRight then normalKey c k
  else if c = 10 then enter k
  else if c = 8 then backspace k
  else if 32 ≤ c ∧ c < 127 then insertChar (UInt8.ofNat c.toNat) k
  else some k

/-! ## Files -/

def fileMax : Int := 4096

/-- The bytes that `save` collects in `buf`, line by line, or nothing when they do not fit. -/
def collect : Nat → Int → List UInt8 → Text → Option (Option (List UInt8))
  | 0, _, buf, _ => some (some buf)
  | n + 1, i, buf, t => do
    let m ← t.len i
    if (buf.length : Int) + m + 1 > fileMax then some none
    else
      let line ← (List.range m.toNat).mapM fun (j : Nat) => t.char i j
      collect n (i + 1) (buf ++ line ++ [10]) t

def fsFull : Int := -3
def fsRo : Int := -6

/-- `save`: its result, the state, and the bytes handed to `sys_fwrite`, which answers `r`. -/
def save (r : Int) (k : Keo) : Option (Int × Keo × Option (List UInt8)) := do
  let c ← getAt 128 k.fname 0
  if c = 0 then some (-99, k, none)
  else
    let b ← collect k.nlines.toNat 0 [] k.text
    match b with
    | none => some (fsFull, k, none)
    | some buf =>
      some (r.bmod (2 ^ 32), if r = 0 then { k with dirty := false } else k, some buf)

/-- The loop of `load` over the bytes of the file, with `li`. -/
def loadLoop : List UInt8 → Int → Text → Option (Int × Text)
  | [], li, t => some (li, t)
  | c :: cs, li, t =>
    if c = 10 then
      if li + 1 < 256 then do
        let t ← t.setLen (li + 1) 0
        loadLoop cs (li + 1) t
      else loadLoop cs li t
    else do
      let m ← t.len li
      if m < 255 then
        let t ← t.setChar li m c
        let t ← t.setLen li (m + 1)
        loadLoop cs li t
      else loadLoop cs li t

/-- `load` when `sys_fread` delivers the bytes `file`; nothing stands for an error. -/
def load (file : Option (List UInt8)) (k : Keo) : Option Keo := do
  let t ← k.text.setLen 0 0
  let msg ← setAt 80 k.msg 0 0
  let k := { k with
    text := t, nlines := 1, cx := 0, cy := 0, top := 0, dirty := false,
    mode := .normal, msg := msg }
  match file with
  | none => some k
  | some bytes =>
    if bytes = [] then some k
    else
      let (li, t) ← loadLoop bytes 0 k.text
      let k := { k with text := t, nlines := li + 1 }
      some (if bytes.getLast? = some 10 ∧ k.nlines > 1 then { k with nlines := k.nlines - 1 }
        else k)

/-! ## Commands -/

/-- What a key leads to. -/
inductive Next
  | go (k : Keo)
  | exited (k : Keo)

/-- "too big" -/
def tooBig : List UInt8 := [116, 111, 111, 32, 98, 105, 103]
/-- "read-only" -/
def readOnly : List UInt8 := [114, 101, 97, 100, 45, 111, 110, 108, 121]
/-- "cannot save" -/
def cannotSave : List UInt8 := [99, 97, 110, 110, 111, 116, 32, 115, 97, 118, 101]
/-- "unsaved, use q!" -/
def unsaved : List UInt8 := [117, 110, 115, 97, 118, 101, 100, 44, 32, 117, 115, 101, 32, 113, 33]
/-- "bad cmd" -/
def badCmd : List UInt8 := [98, 97, 100, 32, 99, 109, 100]

/-- `do_save`. It returns only with a result other than 0. -/
def doSave (r : Int) (k : Keo) : Option Next := do
  let (r, k, _) ← save r k
  if r = 0 then some (.exited k)
  else
    (setMsg (if r = fsFull then tooBig else if r = fsRo then readOnly else cannotSave) k).map .go

/-- `same(cmd + i, b)` -/
def sameFrom (cmd : Int → UInt8) : Int → List UInt8 → Option Bool
  | i, [] => do
    let a ← getAt 128 cmd i
    some (a == 0)
  | i, b :: bs => do
    let a ← getAt 128 cmd i
    if a ≠ 0 ∧ a = b then sameFrom cmd (i + 1) bs else some (a == b)

/-- The loop that copies a new file name out of the command, from index `i` on. It ends at
the NUL of the command or with the buffer of the name. -/
def nameLoop (cmd : Int → UInt8) : Nat → Int → (Int → UInt8) → Option (Int × (Int → UInt8))
  | 0, i, fname => do
    let _ ← getAt 128 cmd (2 + i)
    some (i, fname)
  | n + 1, i, fname => do
    let c ← getAt 128 cmd (2 + i)
    if c = 0 then some (i, fname)
    else
      let fname ← setAt 128 fname i c
      nameLoop cmd n (i + 1) fname

/-- `cmd[0] == 'w' && cmd[1] == ' '` -/
def isRename (k : Keo) : Option Bool := do
  let c ← getAt 128 k.cmd 0
  if c = 119 then (getAt 128 k.cmd 1).map (· == 32) else some false

def execCmd (r : Int) (k : Keo) : Option Next := do
  let isW ← sameFrom k.cmd 0 [119]
  if isW then doSave r k
  else
    let rename ← isRename k
    if rename then
      let (i, fname) ← nameLoop k.cmd 127 0 k.fname
      let fname ← setAt 128 fname i 0
      doSave r { k with fname := fname }
    else
      let isQ ← sameFrom k.cmd 0 [113]
      if isQ then
        if k.dirty then (setMsg unsaved k).map .go else some (.exited k)
      else
        let isQuit ← sameFrom k.cmd 0 [113, 33]
        if isQuit then some (.exited k)
        else
          let isWq ← sameFrom k.cmd 0 [119, 113]
          if isWq then doSave r k else (setMsg badCmd k).map .go

def cmdKey (c r : Int) (k : Keo) : Option Next :=
  if c = 27 then some (.go { k with mode := .normal })
  else if c = 10 then execCmd r { k with mode := .normal }
  else if c = 8 then
    if k.cmdlen > 0 then do
      let cmd ← setAt 128 k.cmd (k.cmdlen - 1) 0
      some (.go { k with cmdlen := k.cmdlen - 1, cmd := cmd })
    else some (.go k)
  else if 32 ≤ c ∧ c < 127 ∧ k.cmdlen < 127 then do
    let cmd ← setAt 128 k.cmd k.cmdlen (UInt8.ofNat c.toNat)
    let cmd ← setAt 128 cmd (k.cmdlen + 1) 0
    some (.go { k with cmdlen := k.cmdlen + 1, cmd := cmd })
  else some (.go k)

/-! ## The screen -/

/-- What `draw` asks of the terminal. -/
inductive Paint
  | setcolor (fg bg : Nat)
  | goto (r c : Int)
  | write (row : List UInt8)

/-- `row[n++] = c`, where `n` is the number of characters put so far. -/
def rowPut (row : List UInt8) (c : UInt8) : Option (List UInt8) :=
  if row.length < 80 then some (row ++ [c]) else none

/-- Several characters one after the other. -/
def rowPuts : List UInt8 → List UInt8 → Option (List UInt8)
  | row, [] => some row
  | row, c :: cs => do
    let row ← rowPut row c
    rowPuts row cs

/-- `while (n < w) row[n++] = ' ';` -/
def rowPad (row : List UInt8) (w : Nat) : Option (List UInt8) :=
  rowPuts row (List.replicate (w - row.length) 32)

/-- The digits of `u` in `tmp`, the last one first; `n` of its 20 places are left. -/
def tmpDigits : Nat → Nat → List UInt8 → Option (List UInt8)
  | 0, u, tmp => if u = 0 then some tmp else none
  | n + 1, u, tmp =>
    if u = 0 then some tmp else tmpDigits n (u / 10) (tmp ++ [UInt8.ofNat (48 + u % 10)])

/-- The minus sign of `emit_dec`. -/
def emitSign (row : List UInt8) (v : Int) : Option (List UInt8) :=
  if v < 0 then rowPut row 45 else some row

/-- `tmp` when `emit_dec` has filled it. -/
def decDigits (v : Int) : Option (List UInt8) :=
  if v = 0 then some [48] else tmpDigits 20 v.natAbs []

/-- `emit_dec(row, n, v)` -/
def emitDec (row : List UInt8) (v : Int) : Option (List UInt8) := do
  let row ← emitSign row v
  let tmp ← decDigits v
  rowPuts row tmp.reverse

/-- `for (i = 0; a[i] && n < w; i++) row[n++] = a[i];` for an array of `size` characters, from
index `i` on. -/
def rowCopy (size : Int) (a : Int → UInt8) (w : Nat) : Nat → Int → List UInt8 → Option (List UInt8)
  | 0, i, row => do
    let _ ← getAt size a i
    some row
  | n + 1, i, row => do
    let c ← getAt size a i
    if c ≠ 0 ∧ row.length < w then
      let row ← rowPut row c
      rowCopy size a w n (i + 1) row
    else some row

/-- The characters of a line that fit into a row, or the mark of a row below the text. -/
def lineChars (k : Keo) (li : Int) : Option (List UInt8) :=
  if li < k.nlines then do
    let m ← k.text.len li
    let line ← (List.range (min m 80).toNat).mapM fun (j : Nat) => k.text.char li j
    rowPuts [] line
  else rowPut [] 126

/-- One of the rows of text. -/
def drawLine (k : Keo) (li : Int) : Option (List UInt8) := do
  let row ← lineChars k li
  rowPad row 80

def modeName : Mode → List UInt8
  | .normal => [78, 79, 82, 77, 65, 76]
  | .insert => [73, 78, 83, 69, 82, 84]
  | .cmd => [67, 77, 68]

/-- `if (dirty && n < 80) row[n++] = '*';` -/
def dirtyMark (k : Keo) (row : List UInt8) : Option (List UInt8) :=
  if k.dirty ∧ row.length < 80 then rowPut row 42 else some row

def statusRow (k : Keo) : Option (List UInt8) := do
  let row ← rowPuts [] [107, 101, 111, 32]
  let row ← rowCopy 128 k.fname 40 40 0 row
  let row ← dirtyMark k row
  let row ← rowPad row 52
  let row ← emitDec row (k.cy + 1)
  let row ← rowPut row 44
  let row ← emitDec row (k.cx + 1)
  let row ← rowPut row 32
  let row ← rowPuts row ((modeName k.mode).take (80 - row.length))
  rowPad row 80

/-- The command being typed, or the message. -/
def cmdChars (k : Keo) : Option (List UInt8) :=
  if k.mode = .cmd then do
    let row ← rowPut [] 58
    let cmd ← (List.range (min k.cmdlen 79).toNat).mapM fun (j : Nat) => getAt 128 k.cmd j
    rowPuts row cmd
  else rowCopy 80 k.msg 80 80 0 []

def cmdRow (k : Keo) : Option (List UInt8) := do
  let row ← cmdChars k
  rowPad row 80

/-- The row `r` of the screen. -/
def paintRow (k : Keo) (r : Nat) : Option (List Paint) := do
  let row ← drawLine k (k.top + r)
  some [.setcolor 0x0F 0x00, .goto r 0, .write row]

/-- `draw`: the clamped state and what is painted. -/
def draw (k : Keo) : Option (Keo × List Paint) := do
  let k ← clamp k
  let rows ← (List.range 23).mapM (paintRow k)
  let status ← statusRow k
  let cmd ← cmdRow k
  let cursor :=
    if k.mode = .cmd then Paint.goto 24 (min (1 + k.cmdlen) 79)
    else .goto (k.cy - k.top) (min k.cx 79)
  some (k, rows.flatten ++ [.setcolor 0x00 0x07, .goto 23 0, .write status, .setcolor 0x0F 0x00,
    .goto 24 0, .write cmd, cursor])

/-! ## Runs -/

/-- The statics when the program starts. -/
def Keo.start : Keo :=
  { text := { lines := fun _ _ => 0, lens := fun _ => 0 }
    nlines := 1, cx := 0, cy := 0, top := 0, dirty := false, fname := fun _ => 0, mode := .normal
    cmd := fun _ => 0, cmdlen := 0, msg := fun _ => 0, pendD := false, pendG := false }

/-- The file name from `argv[1]`, cut at 127 bytes, from index `i` on. -/
def argLoop : List UInt8 → Int → (Int → UInt8) → Option (Int × (Int → UInt8))
  | [], i, fname => some (i, fname)
  | c :: cs, i, fname =>
    if i < 127 then do
      let fname ← setAt 128 fname i c
      argLoop cs (i + 1) fname
    else some (i, fname)

/-- The key handler of the mode. -/
def dispatch (c r : Int) (k : Keo) : Option Next :=
  match k.mode with
  | .normal => (normalKey c k).map .go
  | .insert => (insertKey c k).map .go
  | .cmd => cmdKey c r k

/-- `draw` and back to `sys_getc`, unless the program has ended. -/
def drawNext : Next → Option Next
  | .exited k => some (.exited k)
  | .go k => do
    let (k, _) ← draw k
    some (.go k)

/-- `user_main` up to its loop, for the bytes of `argv[1]` and of the file. -/
def opened (arg : List UInt8) (file : Option (List UInt8)) : Option Next :=
  if arg = [] then some (.exited .start)
  else do
    let (i, fname) ← argLoop arg 0 Keo.start.fname
    let fname ← setAt 128 fname i 0
    let k ← load file { Keo.start with fname := fname }
    drawNext (.go k)

/-- One round of the loop of `user_main`: the key `c`, with `r` as the answer of `sys_fwrite`
should it be called. -/
def keyStep (c r : Int) (k : Keo) : Option Next := do
  let msg ← setAt 80 k.msg 0 0
  let next ← dispatch c r { k with msg := msg }
  drawNext next

/-- A run: each key with the answer `sys_fwrite` would give. -/
def keyRun : List (Int × Int) → Next → Option Next
  | [], next => some next
  | _, .exited k => some (.exited k)
  | (c, r) :: keys, .go k => do
    let next ← keyStep c r k
    keyRun keys next

end InaneOS.User
