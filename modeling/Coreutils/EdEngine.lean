import Coreutils.EdText
import Coreutils.Programs

/-!
# The ed engine

The state of `cmds/internal/editor` and its editing primitives. An operation is a program over the
engine that may fail; the state at the error is kept. The host supplies files, the shell and
compiled expressions.
-/

namespace Coreutils.EdEngine
open GoText EdText Programs

inductive EdError where
  | message (text : Bytes)
  | warned
  | eof
  | signal (name : Bytes)
  deriving DecidableEq,Repr

structure Buffer where
  lines : List Bytes := []
  current : ℤ := 0
  dirty : Bool := false
  deriving DecidableEq,Repr

abbrev Marks := UInt8→Option ℤ

inductive Change where
  | insert (after : ℤ) (texts : List Bytes)
  | delete (first last : ℤ)
  | join (first last : ℤ)
  | move (first last dest : ℤ)
  | split (n : ℤ) (pieces : List Bytes)
  | mark (name : UInt8) (n : ℤ)
  | save
  | undo
  | load (texts : List Bytes)
  deriving DecidableEq,Repr

/-- A text that was loaded, a text that `w` wrote as a whole, in a global command or not, and an
undo with its snapshot and the lines it found. -/
inductive Audit where
  | loaded (texts : List Bytes)
  | written (inGlobal : Bool) (texts : List Bytes)
  | undone (snapshot : Buffer) (found : List Bytes)
  deriving DecidableEq,Repr

/-- `Engine`. The input is the lines and errors that reading it yields, `list` the rest of a global
command list. `history` and `audit` are not in the source: they record what happened, and nothing
reads them. -/
structure Engine (W : Type) where
  buffer : Buffer := {}
  out : Bytes := []
  err : Bytes := []
  prompt : Bytes := []
  filename : Bytes := []
  lastRE : Bytes := []
  lastReplacement : Bytes := []
  hasReplacement : Bool := false
  lastDiagnostic : Bytes := []
  lastShell : Bytes := []
  promptSetting : Bytes := []
  help : Bool := false
  warned : Bool := false
  reader : List (Bytes×Option EdError) := []
  list : Option Bytes := none
  marks : Marks := fun _ => none
  undoBuffer : Buffer := {}
  undoMarks : Marks := fun _ => none
  undoValid : Bool := false
  inGlobal : Bool := false
  interactiveGlobal : Bool := false
  globalQuit : Bool := false
  globalTargets : List ℤ := []
  globalSubCommand : ℤ := 0
  globalSubAttempt : List Bool := []
  globalSubChanged : List Bool := []
  changeSeq : ℕ := 0
  history : List Change := []
  audit : List Audit := []
  world : W

structure Matcher where
  matchString : Bytes→Except Bytes Bool
  findAll : Bytes→Except Bytes (List Match)

structure Host (W : Type) where
  silent : Bool := false
  byteLocale : Bool := false
  isPrint : ℕ→Bool := fun _ => true
  compileRE : Bytes→Except Bytes Matcher
  read : Bytes→W→Except Bytes Bytes×W
  write : Bytes→Bytes→W→Option Bytes×W
  append : Option (Bytes→Bytes→W→Option Bytes×W)
  shell : Option (Bytes→Bytes→W→(Bytes×Option Bytes)×W)

abbrev Ed (W α : Type) := Prog (Engine W) EdError α

variable {W α : Type}

def fail (text : String) : Ed W α := throw (.message (ascii text))

def raise (text : Bytes) : Ed W α := throw (.message text)

def refuse {W : Type} (c : Prop) [Decidable c] (text : String) : Ed W Unit :=
  if c then fail text else pure ()

def onlyIf {W : Type} (c : Prop) [Decidable c] (m : Ed W Unit) : Ed W Unit :=
  if c then m else pure ()

def orRaise : Except Bytes α→Ed W α
  | .ok a => pure a
  | .error text => raise text

def Buffer.last (b : Buffer) : ℤ := b.lines.length

def Buffer.reset (lines : List Bytes) (dirty : Bool) : Buffer :=
  { lines,current := lines.length,dirty }

def Buffer.append (b : Buffer) (after : ℤ) (lines : List Bytes) : Option Buffer :=
  if after<0 ∨ b.last<after then none
  else if lines=[] then some { b with current := after }
  else
    some { lines := b.lines.take after.toNat++lines++b.lines.drop after.toNat
           current := after+lines.length
           dirty := true }

def Buffer.delete (b : Buffer) (first last : ℤ) : Option Buffer :=
  if first<1 ∨ last<first ∨ b.last<last then none
  else
    let lines := b.lines.take (first-1).toNat++b.lines.drop last.toNat
    some { lines
           current := if lines=[] then 0 else if first≤lines.length then first else lines.length
           dirty := true }

section
variable {W : Type}

def Engine.line (e : Engine W) (n : ℤ) : Bytes := (e.buffer.lines[(n-1).toNat]?).getD []

def Engine.lineRange (e : Engine W) (first last : ℤ) : List Bytes :=
  (e.buffer.lines.take last.toNat).drop (first-1).toNat

def setCurrent (n : ℤ) : Ed W Unit :=
  modify fun e => { e with buffer := { e.buffer with current := n } }

def println (text : Bytes) : Ed W Unit := modify fun e => { e with out := e.out++text++[newline] }

def note (c : Change) : Ed W Unit := modify fun e => { e with history := e.history++[c] }

/-- `readCommandLine`: a line with its newline, and the error that ended it. -/
def readCommandLine : Ed W (Bytes×Option EdError) := do
  let e ← get
  match e.list with
  | some text =>
    if newline∈text then do
      set { e with list := some (text.dropWhile (· != newline)).tail }
      return (text.takeWhile (· != newline)++[newline],none)
    else do
      set { e with list := some [] }
      return (text,some .eof)
  | none =>
    match e.reader with
    | [] => return ([],some .eof)
    | r::rest => do
      set { e with reader := rest }
      return r

def Engine.unread (e : Engine W) : ℕ := e.reader.length+(e.list.getD []).length+1

def readInputFrom : ℕ→List Bytes→Ed W (List Bytes)
  | 0,lines => return lines
  | fuel+1,lines => do
    let (line,err) ← readCommandLine
    match err,line with
    | some .eof,[] => return lines
    | some err,[] => throw err
    | err,line =>
      let line := trimNewline line
      let line := if (← get).list.isSome then stripContinuation line else line
      if line=[46] then return lines
      else
        match err with
        | none => readInputFrom fuel (lines++[line])
        | some .eof => return lines++[line]
        | some err => throw err

def readInput : Ed W (List Bytes) := do readInputFrom (← get).unread []

def readSubstituteFrom : ℕ→Bytes→Ed W Bytes
  | 0,arg => return arg
  | fuel+1,arg =>
    if !hasOddTrailingBackslashes arg then return arg
    else do
      let (next,err) ← readCommandLine
      -- a last line without its newline is read and refused like the end of the input
      refuse err.isSome "unterminated substitute replacement"
      readSubstituteFrom fuel (arg.dropLast++[newline]++trimNewline next)

def readSubstituteArgument (arg : Bytes) : Ed W Bytes := do
  readSubstituteFrom (← get).unread arg

def saveUndo : Ed W Unit := modify fun e =>
  if e.inGlobal then e
  else
    { e with
      undoBuffer := e.buffer
      undoMarks := e.marks
      undoValid := true
      history := e.history++[.save] }

def Marks.insert (m : Marks) (after count : ℤ) : Marks := fun k =>
  (m k).map fun n => if after<n then n+count else n

def Marks.delete (m : Marks) (first last : ℤ) : Marks := fun k =>
  (m k).bind fun n =>
    if first≤n ∧ n≤last then none
    else if last<n then some (n-(last-first+1))
    else some n

def adjustGlobalInsert (targets : List ℤ) (after count : ℤ) : List ℤ :=
  targets.map fun n => if after<n then n+count else n

def adjustGlobalDelete (targets : List ℤ) (first last : ℤ) : List ℤ :=
  targets.map fun n =>
    if first≤n ∧ n≤last then 0 else if last<n then n-(last-first+1) else n

def bufferAppend (after : ℤ) (lines : List Bytes) : Ed W Unit := do
  match (← get).buffer.append after lines with
  | none => fail "invalid address"
  | some b => modify fun e => { e with buffer := b }

def bufferDelete (first last : ℤ) : Ed W Unit := do
  match (← get).buffer.delete first last with
  | none => fail "invalid address"
  | some b => modify fun e => { e with buffer := b }

def changed (c : Change) : Ed W Unit := modify fun e =>
  { e with changeSeq := e.changeSeq+1,history := e.history++[c] }

def appendLines (after : ℤ) (lines : List Bytes) : Ed W Unit := do
  refuse (after<0 ∨ (← get).buffer.last<after) "invalid address"
  onlyIf (lines≠[]) saveUndo
  bufferAppend after lines
  onlyIf (lines≠[]) do
    changed (.insert after lines)
    modify fun e =>
      { e with globalTargets := adjustGlobalInsert e.globalTargets after lines.length }
  modify fun e => { e with marks := e.marks.insert after lines.length }

def deleteLines (first last : ℤ) : Ed W Unit := do
  saveUndo
  bufferDelete first last
  changed (.delete first last)
  modify fun e => { e with
    globalTargets := adjustGlobalDelete e.globalTargets first last
    marks := e.marks.delete first last }

def appendLinesNoUndo (after : ℤ) (lines : List Bytes) : Ed W Unit := do
  bufferAppend after lines
  modify fun e => { e with
    marks := e.marks.insert after lines.length
    globalTargets :=
      if lines=[] then e.globalTargets
      else adjustGlobalInsert e.globalTargets after lines.length }

def deleteLinesNoUndo (first last : ℤ) : Ed W Unit := do
  bufferDelete first last
  modify fun e => { e with
    globalTargets := adjustGlobalDelete e.globalTargets first last
    marks := e.marks.delete first last }

def changeLines (first last : ℤ) (lines : List Bytes) : Ed W Unit := do
  saveUndo
  if (← get).buffer.last=0 ∧ (first=0 ∨ first=1) ∧ (last=0 ∨ last=1) then do
    appendLinesNoUndo 0 lines
    onlyIf (lines≠[]) (changed (.insert 0 lines))
  else do
    deleteLinesNoUndo first last
    note (.delete first last)
    if lines=[] then modify fun e => { e with changeSeq := e.changeSeq+1 }
    else do
      appendLinesNoUndo (first-1) lines
      changed (.insert (first-1) lines)

/-- `m` with the marks that `old` has in a range put back at `place`. -/
def Marks.replace (m old : Marks) (first last : ℤ) (place : ℤ→ℤ) : Marks := fun k =>
  ((old k).filter fun n => first≤n ∧ n≤last).elim (m k) fun n => some (place n)

def join (first last : ℤ) : Ed W Unit := do
  refuse (first<1 ∨ last<first ∨ (← get).buffer.last<last) "invalid address"
  onlyIf (first≠last) do
    saveUndo
    let e ← get
    deleteLinesNoUndo first last
    appendLinesNoUndo (first-1) [(e.lineRange first last).flatten]
    modify fun e' => { e' with marks := e'.marks.replace e.marks first last fun _ => first }
    changed (.join first last)

def copy (first last dest : ℤ) : Ed W Unit := do
  let e ← get
  refuse (dest<0 ∨ e.buffer.last<dest) "invalid address"
  appendLines dest (e.lineRange first last)

def move (first last dest : ℤ) : Ed W Unit := do
  refuse (dest<0 ∨ (← get).buffer.last<dest) "invalid address"
  if dest=last ∨ dest=first-1 then setCurrent last
  else do
    refuse (first≤dest ∧ dest<last) "invalid destination"
    saveUndo
    let e ← get
    deleteLinesNoUndo first last
    let dest' := if last<dest then dest-(last-first+1) else dest
    appendLinesNoUndo dest' (e.lineRange first last)
    modify fun e' => { e' with
      marks := e'.marks.replace e.marks first last fun n => dest'+1+(n-first) }
    changed (.move first last dest)

end

end Coreutils.EdEngine
