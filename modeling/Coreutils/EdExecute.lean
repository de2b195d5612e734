import Coreutils.EdAddress

/-!
# The commands of ed

`execute` of `cmds/internal/editor` with substitution and the global commands.
-/

namespace Coreutils.EdExecute
open GoText EdText EdEngine EdAddress Programs

section
variable {W : Type} (host : Host W)

def selectMatches (flags : SubFlags) (ms : List Match) : List Match :=
  if 0<flags.count then (ms[(flags.count-1).toNat]?).toList
  else if flags.global then ms
  else ms.take 1

def replaceMatches (line replacement : Bytes) : ℕ→List Match→Bytes
  | at',[] => line.drop at'
  | at',m::ms =>
    slice line at' m.start++expandReplacement line m replacement ++
      replaceMatches line replacement m.stop ms

/-- The lines that take the place of a line; `none` when nothing is replaced in it. -/
def rewriteLine (re : Matcher) (flags : SubFlags) (replacement line : Bytes) :
    Except Bytes (Option (List Bytes)) := do
  match selectMatches flags (← re.findAll line) with
  | [] => pure none
  | ms => pure (some ((replaceMatches line replacement 0 ms).splitOn newline))

def splitLine (n : ℤ) (pieces : List Bytes) : Ed W Unit := modify fun e =>
  let delta : ℤ := pieces.length-1
  { e with
    buffer := { e.buffer with
      lines := e.buffer.lines.take (n-1).toNat++pieces++e.buffer.lines.drop n.toNat }
    globalTargets := e.globalTargets.map fun t => if t=n then 0 else if n<t then t+delta else t
    marks := fun k => (e.marks k).map fun m => if n ≤ m then m+delta else m
    history := e.history++[.split n pieces] }

/-- The line loop of `substitute`: whether a line changed, and the last line that did. -/
def substituteFrom (re : Matcher) (flags : SubFlags) (replacement : Bytes) :
    ℕ→ℤ→Bool×ℤ→Ed W (Bool×ℤ)
  | 0,_,r => return r
  | left+1,n,r => do
    let e ← get
    match ← orRaise (rewriteLine re flags replacement (e.line n)) with
    | none => substituteFrom re flags replacement left (n+1) r
    | some pieces => do
      splitLine n pieces
      substituteFrom re flags replacement left (n+pieces.length) (true,n+pieces.length-1)

structure Substitution where
  re : Matcher
  flags : SubFlags
  pattern : Bytes
  replacement : Bytes

def parseSubstitute (arg : Bytes) : Ed W Substitution := do
  refuse (arg=[]) "missing substitute expression"
  let delim := commandDelimiter host.byteLocale arg
  refuse (badDelimiter delim) "invalid substitute delimiter"
  let r := scanRE (arg.drop delim.length) delim
  refuse (!r.closed) "unterminated regular expression"
  let replacement := delimitedBy r.rest delim
  let pattern ← patternOrLast r.text
  let e ← get
  refuse (replacement.text=[37] ∧ !e.hasReplacement) "no previous replacement"
  let text := if replacement.text=[37] then e.lastReplacement else replacement.text
  let re ← orRaise (host.compileRE pattern)
  match parseSubFlags replacement.rest with
  | .error .count => fail "invalid substitution count"
  | .error .flag => fail "invalid substitution flag"
  | .ok flags =>
    return { re,pattern
             flags := if replacement.closed then flags else { flags with style := some .p }
             replacement := text }

def noteAttempt (success : Bool) : Ed W Unit := modify fun e =>
  if e.inGlobal ∧ !e.interactiveGlobal ∧ 0≤e.globalSubCommand then
    { e with
      globalSubAttempt := e.globalSubAttempt.set e.globalSubCommand.toNat true
      globalSubChanged :=
        if success then e.globalSubChanged.set e.globalSubCommand.toNat true
        else e.globalSubChanged }
  else e

/-- A substitution that replaced nothing: an error, except in a global command. -/
def substituteMissed (before : Engine W) : Ed W Unit := do
  let e ← get
  if e.inGlobal then noteAttempt false
  else do
    set { e with
      undoBuffer := before.undoBuffer
      undoMarks := before.undoMarks
      undoValid := before.undoValid }
    fail "no match"

def substituteLines (sub : Substitution) (first last : ℤ) : Ed W Unit := do
  modify fun e => { e with
    lastRE := sub.pattern
    lastReplacement := sub.replacement
    hasReplacement := true }
  let before ← get
  saveUndo
  let (changedAny,lastChanged) ←
    substituteFrom sub.re sub.flags sub.replacement (last+1-first).toNat first (false,0)
  if !changedAny then substituteMissed before
  else do
    modify fun e => { e with
      buffer := { e.buffer with current := lastChanged,dirty := true }
      changeSeq := e.changeSeq+1 }
    noteAttempt true
    match sub.flags.style with
    | none => return
    | some style => printOne host [lastChanged] style

def substitute (first last : ℤ) (arg : Bytes) : Ed W Unit := do
  let sub ← parseSubstitute host arg
  substituteLines host sub first last

def load (name : Bytes) : Ed W ℕ := do
  match ← hostRead host name with
  | .error text => raise text
  | .ok data => do
    modify fun e => { e with
      buffer := Buffer.reset (splitText data) false
      marks := fun _ => none
      undoValid := false
      filename := name
      warned := false
      history := e.history++[.load (splitText data)]
      audit := e.audit++[.loaded (splitText data)] }
    return data.length

/-- The change that `a`, `i` and `c` make; its own error is dropped. -/
def inputChange (cmd : Command) (addrs : List ℤ) (text : List Bytes) : Ed W Unit := do
  let e ← get
  if cmd=.a then do
    let a ← oneAddress addrs e.buffer.current true
    tryCatch (appendLines a text) fun _ => pure ()
  else if cmd=.i then do
    let a ← oneAddress addrs e.buffer.current true
    let a := if a=0 then 1 else a
    tryCatch (do
      appendLines (a-1) text
      -- an empty insert leaves dot at the addressed line
      onlyIf (text=[]) (setCurrent (min a e.buffer.last))) fun _ => pure ()
  else do
    let (first,last) ← twoAddresses addrs e.buffer.current e.buffer.current true
    tryCatch (changeLines (if first=0 then 1 else first) (if last=0 then 1 else last) text)
      fun _ => pure ()

def input (cmd : Command) (addrs : List ℤ) (arg : Bytes) : Ed W Unit := do
  let style ← suffix arg
  let text ← readInput
  inputChange cmd addrs text
  printStyle host style

def markCommand (addrs : List ℤ) (arg : Bytes) : Ed W Unit := do
  let e ← get
  let a ← oneAddress addrs e.buffer.current false
  match trimRightBlank arg with
  | [] => fail "invalid mark"
  | k::rest => do
    refuse (1<rest.length ∨ k<97 ∨ 122<k) "invalid mark"
    let style ← suffix rest
    modify fun e => { e with
      marks := fun j => if j=k then some a else e.marks j
      history := e.history++[.mark k a] }
    printStyle host style

/-- The destination of `m` and `t`: the current line when it is left out. -/
def addressAndSuffix (arg : Bytes) : Ed W (ℤ×Option Style) := do
  match ← parseAddress host (skipBlank arg) with
  | some (a,rest) => return (a,←suffix rest)
  | none => do
    let e ← get
    return (e.buffer.current,←suffix (skipBlank arg))

def moveOrCopy (cmd : Command) (first last dest : ℤ) : Ed W Unit :=
  if cmd=.m then move first last dest else copy first last dest

def undo : Ed W Unit := do
  let e ← get
  refuse (!e.undoValid) "nothing to undo"
  set { e with
    buffer := { e.undoBuffer with
      dirty := if e.undoBuffer.lines≠e.buffer.lines then true else e.undoBuffer.dirty }
    marks := e.undoMarks
    undoBuffer := e.buffer
    undoMarks := e.marks
    globalTargets := if e.inGlobal then e.globalTargets.map fun _ => 0 else e.globalTargets
    changeSeq := e.changeSeq+1
    history := e.history++[Change.undo]
    audit := e.audit++[Audit.undone e.undoBuffer e.buffer.lines] }

def warnModified : Ed W Unit := do
  let e ← get
  if e.buffer.dirty ∧ !e.warned then do
    set { e with warned := true }
    throw .warned
  else return

/-- A change of the whole buffer ends what a global command had selected. -/
def reloaded (n : ℕ) : Ed W Unit := do
  modify fun e => { e with
    changeSeq := e.changeSeq+1
    globalTargets := if e.inGlobal then e.globalTargets.map fun _ => 0 else e.globalTargets }
  onlyIf (!host.silent) (println (itoa n))

/-- `e` and `E` with a name: when the file cannot be read the buffer is gone, the name kept. -/
def reload (name : Bytes) : Ed W Unit :=
  if name.head?=some 33 then do
    let data ← shellOutput host name.tail
    modify fun e => { e with
      buffer := Buffer.reset (splitText data) false
      marks := fun _ => none
      undoValid := false
      history := e.history++[.load (splitText data)]
      audit := e.audit++[.loaded (splitText data)] }
    reloaded host data.length
  else do
    let n ← tryCatch (load host name) fun err => do
      modify fun e => { e with
        buffer := Buffer.reset [] false
        marks := fun _ => none
        undoValid := false
        filename := name
        changeSeq := e.changeSeq+1
        history := e.history++[.load []]
        audit := e.audit++[.loaded []] }
      match err with
      | .message text => fileDiagnostic text
      | err => throw err
    reloaded host n

def edit (arg : Bytes) (check : Bool) : Ed W Unit := do
  separated arg
  onlyIf check warnModified
  let e ← get
  let name := if trimBlank arg=[] then e.filename else trimBlank arg
  refuse (name=[]) "no current filename"
  reload host name

def fileName (arg : Bytes) : Ed W Unit := do
  separated arg
  let name := trimBlank arg
  refuse (name.head?=some 33) "invalid filename"
  modify fun e => { e with filename := if name=[] then e.filename else name }
  let e ← get
  refuse (e.filename=[]) "no current filename"
  println e.filename

def promptCommand (arg : Bytes) : Ed W Unit := do
  let style ← suffix arg
  modify fun e =>
    let setting :=
      if e.promptSetting≠[] then e.promptSetting else if e.prompt≠[] then e.prompt else [42]
    { e with promptSetting := setting,prompt := if e.prompt=[] then setting else [] }
  printStyleIf host style

def helpCommand (toggle : Bool) (arg : Bytes) : Ed W Unit := do
  let style ← suffix arg
  modify fun e => { e with help := if toggle then !e.help else e.help }
  let e ← get
  onlyIf ((toggle→e.help) ∧ e.lastDiagnostic≠[]) (println e.lastDiagnostic)
  printStyleIf host style

/-- `closedSubstitutionAt` for the text from the command letter on. -/
def closedSubstitution (s : Bytes) : Bool :=
  match s with
  | 115::arg =>
    let delim := commandDelimiter host.byteLocale arg
    if arg=[] || delim == [] || badDelimiter delim then false
    else
      let r := scanRE (arg.drop delim.length) delim
      r.closed && (delimitedBy r.rest delim).closed
  | _ => false

/-- The substitution commands of a list are numbered from its start. -/
def countSubstitution (letter : UInt8) (subCommand : ℕ) : Ed W Unit := modify fun e =>
  if letter=115 ∧ !e.interactiveGlobal then
    { e with
      globalSubCommand := subCommand
      globalSubAttempt := e.globalSubAttempt.rightpad (subCommand+1) false
      globalSubChanged := e.globalSubChanged.rightpad (subCommand+1) false }
  else { e with globalSubCommand := -1 }

def executeListFrom (execute : Bytes→Ed W Bool) : ℕ→ℕ→Ed W Bool
  | 0,_ => return false
  | fuel+1,subCommand => do
    let (text,err) ← readCommandLine
    match err,text with
    | some .eof,[] => return false
    | some err,[] => throw err
    | err,text => do
      let line := trimNewline text
      let (_,rest) ← parseAddresses host line
      let rest := skipBlank rest
      let letter := commandLetter line
      let strip : Bool := letter≠115 ∨ closedSubstitution host rest
      let line' := if strip then stripContinuation line else line
      let rest' := rest.take (line'.length-(line.length-rest.length))
      refuse (rest'.head?.any fun c => (Command.ofByte c).isGlobal) "cannot nest global commands"
      countSubstitution letter subCommand
      let e ← get
      let quit ← execute line'
      if quit ∨ err.isSome then return quit
      else
        executeListFrom execute fuel
          (if letter=115 ∧ !e.interactiveGlobal then subCommand+1 else subCommand)

def executeGlobalList (execute : Bytes→Ed W Bool) (commands : Bytes) : Ed W Bool :=
  withDefer (do
    modify fun e => { e with list := some (commands++[newline]) }
    executeListFrom host execute (commands.length+2) 0)
    fun before r => { final r with list := before.list }

def notInteractive : Command→Bool
  | .a | .c | .i | .g | .G | .v | .V => true
  | _ => false

/-- The command that `G` and `V` read for a line: none for an empty line, the one before for `&`. -/
def readInteractive (n : ℤ) (previous : Bytes) : Ed W (Option (Bytes×Bytes)) := do
  let e ← get
  println (e.line n)
  let (text,err) ← readCommandLine
  match err,text with
  | some err,[] => throw err
  | _,text => do
    let line := trimNewline text
    if line=[] then return none
    else do
      refuse (line=[38] ∧ previous=[]) "no previous interactive command"
      let line := if line=[38] then previous else line
      let (_,rest) ← parseAddresses host line
      refuse ((skipBlank rest).head?.any fun c => notInteractive (Command.ofByte c))
        "command not permitted in interactive global"
      return some (line,line)

/-- The target loop of `global`: the entries from `index` on, the number of which is left. -/
def visitTargets (execute : Bytes→Ed W Bool) (command : Option Bytes) : ℕ→ℕ→Bytes→Ed W Bool
  | 0,_,_ => return false
  | left+1,index,previous => do
    let e ← get
    let n := (e.globalTargets[index]?).getD 0
    if n=0 then visitTargets execute command left (index+1) previous
    else do
      set { e with
        globalTargets := e.globalTargets.set index 0
        buffer := { e.buffer with current := n } }
      match command with
      | some command => do
        let quit ← executeGlobalList host execute command
        if quit then return true else visitTargets execute (some command) left (index+1) previous
      | none =>
        match ← readInteractive host n previous with
        | none => visitTargets execute none left (index+1) previous
        | some (line,previous) => do
          let quit ← executeGlobalList host execute line
          if quit then return true else visitTargets execute none left (index+1) previous

def readListFrom : ℕ→Bytes→Ed W Bytes
  | 0,command => return command
  | fuel+1,command =>
    if !hasOddTrailingBackslashes (lastLine command) then return command
    else do
      let (next,err) ← readCommandLine
      refuse (err.isSome ∧ next=[]) "unterminated command list"
      readListFrom fuel (command++[newline]++trimNewline next)

/-- The lines of a range whose match is as wanted; the first line is `n`. -/
def selectLines (re : Matcher) (wanted : Bool) : ℤ→List Bytes→Except Bytes (List ℤ)
  | _,[] => .ok []
  | n,line::lines => do
    let ok ← re.matchString line
    let rest ← selectLines re wanted (n+1) lines
    pure (if ok=wanted then n::rest else rest)

structure GlobalPlan where
  re : Matcher
  first : ℤ
  last : ℤ
  command : Option Bytes
  style : Option Style

/-- The part of `global` before anything is selected; the command is `none` for `G` and `V`. -/
def planGlobal (addrs : List ℤ) (arg : Bytes) (interactive : Bool) : Ed W GlobalPlan := do
  let (first,last) ← twoAddresses addrs 1 (← get).buffer.last false
  refuse (arg=[]) "missing regular expression"
  let delim := commandDelimiter host.byteLocale arg
  refuse (badDelimiter delim) "invalid regular expression delimiter"
  let r := scanRE (arg.drop delim.length) delim
  let pattern ← patternOrLast r.text
  let re ← orRaise (host.compileRE pattern)
  modify fun e => { e with lastRE := pattern }
  let rest := if r.closed then r.rest else []
  if interactive then do
    let style ← suffix rest
    return { re,first,last,command := none,style }
  else do
    let command := if trimBlank rest=[] then [112] else trimBlank rest
    let command ← readListFrom (← get).unread command
    return { re,first,last,command := some command,style := none }

def runGlobal (execute : Bytes→Ed W Bool) (plan : GlobalPlan) (count : ℕ) : Ed W Unit := do
  let quit ← visitTargets host execute plan.command count 0 []
  if quit then modify fun e => { e with globalQuit := true }
  else do
    let e ← get
    refuse ((e.globalSubAttempt.zip e.globalSubChanged).any fun p => p.1 && !p.2) "no match"
    printStyleIf host plan.style

/-- What `global` does however it ends: a failure that changed nothing keeps the undo state of
before, and a completed command owns it. -/
def finishGlobal (before : Engine W) (r : EStateM.Result EdError (Engine W) Unit) : Engine W :=
  let e := { final r with
    inGlobal := false
    interactiveGlobal := before.interactiveGlobal
    globalTargets := []
    globalSubCommand := -1
    globalSubAttempt := []
    globalSubChanged := [] }
  if e.changeSeq≠before.changeSeq then e
  else if failed r then
    { e with
      undoBuffer := before.undoBuffer
      undoMarks := before.undoMarks
      undoValid := before.undoValid }
  else
    { e with
      undoBuffer := e.buffer
      undoMarks := e.marks
      undoValid := true
      changeSeq := e.changeSeq+1
      history := e.history++[.save] }

def global (execute : Bytes→Ed W Bool) (addrs : List ℤ) (arg : Bytes) (wanted interactive : Bool) :
    Ed W Unit := do
  let plan ← planGlobal host addrs arg interactive
  let e ← get
  let targets ← orRaise (selectLines plan.re wanted plan.first (e.lineRange plan.first plan.last))
  withDefer (do
    saveUndo
    modify fun e => { e with
      inGlobal := true
      interactiveGlobal := interactive
      globalTargets := targets
      globalSubCommand := -1
      globalSubAttempt := []
      globalSubChanged := [] }
    runGlobal host execute plan targets.length)
    finishGlobal

def printCommand (style : Style) (addrs : List ℤ) (arg : Bytes) : Ed W Unit := do
  let _ ← suffix arg
  printRange host addrs style

def deleteCommand (addrs : List ℤ) (arg : Bytes) : Ed W Unit := do
  let e ← get
  let (first,last) ← twoAddresses addrs e.buffer.current e.buffer.current false
  let style ← suffix arg
  deleteLines first last
  onlyIf (0<(← get).buffer.last) (printStyle host style)

def joinCommand (addrs : List ℤ) (arg : Bytes) : Ed W Unit := do
  let e ← get
  let (first,last) ← twoAddresses addrs e.buffer.current (e.buffer.current+1) false
  let style ← suffix arg
  join first last
  printStyle host style

def moveCommand (cmd : Command) (addrs : List ℤ) (arg : Bytes) : Ed W Unit := do
  let e ← get
  let (first,last) ← twoAddresses addrs e.buffer.current e.buffer.current false
  let (dest,style) ← addressAndSuffix host arg
  moveOrCopy cmd first last dest
  printStyle host style

def lineNumber (addrs : List ℤ) (arg : Bytes) : Ed W Unit := do
  let e ← get
  let style ← suffix arg
  let a ← oneAddress addrs e.buffer.last true
  println (itoa a)
  printStyleIf host style

def substituteCommand (addrs : List ℤ) (arg : Bytes) : Ed W Unit := do
  let e ← get
  let (first,last) ← twoAddresses addrs e.buffer.current e.buffer.current false
  let arg ← readSubstituteArgument arg
  substitute host first last arg

/-- `w`, which quits after it when a `q` follows at once; a separated `q` is a file name. -/
def writeCommand (addrs : List ℤ) (arg : Bytes) : Ed W Bool :=
  if arg.head?=some 113 ∧ (arg.tail=[] ∨ arg.tail.head?.any isBlank) then do
    write host addrs arg.tail false
    return true
  else do
    write host addrs arg false
    return false

def readCommand (addrs : List ℤ) (arg : Bytes) : Ed W Unit := do
  let e ← get
  let a ← oneAddress addrs e.buffer.last true
  separated arg
  readFile host a arg

def undoCommand (addrs : List ℤ) (arg : Bytes) : Ed W Unit := do
  refuse (addrs≠[]) "unexpected address"
  let style ← suffix arg
  undo
  printStyleIf host style

def quitCommand (check : Bool) (addrs : List ℤ) (arg : Bytes) : Ed W Unit := do
  refuse (addrs≠[] ∨ arg≠[]) "unexpected address or argument"
  onlyIf check warnModified

def withoutAddress (addrs : List ℤ) (text : String) (m : Ed W Unit) : Ed W Unit := do
  refuse (addrs≠[]) text
  m

def andStay (m : Ed W Unit) : Ed W Bool := do
  m
  return false

/-- The command switch of `execute`, given the global command; the result tells to quit. -/
def dispatch (global : List ℤ→Bytes→Bool→Bool→Ed W Bool) (addrs : List ℤ) (rest : Bytes) :
    Ed W Bool :=
  match rest with
  | [] => andStay do
    let e ← get
    printOne host (if addrs=[] then [e.buffer.current+1] else addrs) .p
  | letter::arg =>
    match Command.ofByte letter with
    | .a => andStay (input host .a addrs arg)
    | .i => andStay (input host .i addrs arg)
    | .c => andStay (input host .c addrs arg)
    | .d => andStay (deleteCommand host addrs arg)
    | .j => andStay (joinCommand host addrs arg)
    | .k => andStay (markCommand host addrs arg)
    | .m => andStay (moveCommand host .m addrs arg)
    | .t => andStay (moveCommand host .t addrs arg)
    | .p => andStay (printCommand host .p addrs arg)
    | .n => andStay (printCommand host .n addrs arg)
    | .l => andStay (printCommand host .l addrs arg)
    | .equals => andStay (lineNumber host addrs arg)
    | .s => andStay (substituteCommand host addrs arg)
    | .w => writeCommand host addrs arg
    | .W => andStay (write host addrs arg true)
    | .r => andStay (readCommand host addrs arg)
    | .u => andStay (undoCommand host addrs arg)
    | .g => global addrs arg true false
    | .v => global addrs arg false false
    | .G => global addrs arg true true
    | .V => global addrs arg false true
    | .P => andStay (withoutAddress addrs "unexpected address or argument" (promptCommand host arg))
    | .bang => andStay (withoutAddress addrs "unexpected address" (shellEscape host arg))
    | .e => andStay (withoutAddress addrs "unexpected address" (edit host arg true))
    | .E => andStay (withoutAddress addrs "unexpected address" (edit host arg false))
    | .q => do
      quitCommand true addrs arg
      return true
    | .Q => do
      quitCommand false addrs arg
      return true
    | .f => andStay (withoutAddress addrs "unexpected address" (fileName arg))
    | .h => andStay (withoutAddress addrs "unexpected address or argument"
      (helpCommand host false arg))
    | .H => andStay (withoutAddress addrs "unexpected address or argument"
      (helpCommand host true arg))
    | .unknown => fail "unknown command"

def disarms : EStateM.Result EdError (Engine W) Bool→Bool
  | .ok _ _ => false
  | .error err _ => err≠.warned

/-- The deferred part of `execute`: dot goes back after an error that changed nothing, and the
armed warning ends at an error or a change. -/
def settle (before : Engine W) (r : EStateM.Result EdError (Engine W) Bool) : Engine W :=
  let e := final r
  let unchanged : Bool := e.changeSeq=before.changeSeq
  { e with
    buffer := { e.buffer with
      current := if failed r ∧ unchanged then before.buffer.current else e.buffer.current }
    warned := if !unchanged ∨ disarms r then false else e.warned }

def executeWith (global : List ℤ→Bytes→Bool→Bool→Ed W Bool) (line : Bytes) : Ed W Bool :=
  withDefer (do
    let (addrs,rest) ← parseAddresses host line
    dispatch host global addrs (skipBlank rest))
    settle

def executeNested : Bytes→Ed W Bool :=
  executeWith host fun _ _ _ _ => fail "cannot nest global commands"

def execute : Bytes→Ed W Bool :=
  executeWith host fun addrs arg wanted interactive => do
    modify fun e => { e with globalQuit := false }
    global host (executeNested host) addrs arg wanted interactive
    return (← get).globalQuit

end

end Coreutils.EdExecute
