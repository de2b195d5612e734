import Coreutils.EdEngine

/-!
# Addresses, printing and files of ed

`address.go` of `cmds/internal/editor`, and what its commands print, read and write.
-/

namespace Coreutils.EdAddress
open GoText EdText EdEngine

section
variable {W : Type}

/-- The offset loop of `parseAddress`: a number binds to a sign that it immediately follows. -/
def parseOffsets : ℕ→ℤ→Bytes→ℤ×Bytes
  | 0,value,s => (value,s)
  | fuel+1,value,s =>
    match skipBlank s with
    | [] => (value,[])
    | c::t =>
      if c=43 ∨ c=45 then
        let ds := t.takeWhile isDigit
        let delta := if ds=[] then 1 else atoi ds
        parseOffsets fuel (wrap64 (value+(if c=43 then delta else -delta))) (t.dropWhile isDigit)
      else if isDigit c then
        parseOffsets fuel (wrap64 (value+atoi ((c::t).takeWhile isDigit)))
          ((c::t).dropWhile isDigit)
      else (value,c::t)

def searchFrom (re : Matcher) (forward : Bool) : ℕ→ℤ→Ed W ℤ
  | 0,_ => fail "no match"
  | left+1,step => do
    let e ← get
    let n := e.buffer.last
    let idx := if forward then (e.buffer.current+step-1)%n
      else (e.buffer.current-step-1+n*2)%n
    if ← orRaise (re.matchString (e.line (idx+1))) then return idx+1
    else searchFrom re forward left (step+1)

def search (re : Matcher) (forward : Bool) : Ed W ℤ := do
  let n := (← get).buffer.lines.length
  if n=0 then fail "no match" else searchFrom re forward n 1

def patternOrLast (pattern : Bytes) : Ed W Bytes := do
  let e ← get
  let pattern := if pattern=[] then e.lastRE else pattern
  refuse (pattern=[]) "no previous regular expression"
  return pattern

variable (host : Host W)

def parseBase (s : Bytes) : Ed W (Option (ℤ×Bytes)) :=
  match s with
  | [] => return none
  | c::t =>
    if c=39 then
      match t with
      | k::rest =>
        if 97≤k ∧ k≤122 then do
          let e ← get
          match e.marks k with
          | some n => return some (n,rest)
          | none => fail "invalid address"
        else fail "invalid mark address"
      | [] => fail "invalid mark address"
    else if c=46 then do return some ((← get).buffer.current,t)
    else if c=36 then do return some ((← get).buffer.last,t)
    else if c=47 ∨ c=63 then do
      let r := scanRE t [c]
      let pattern ← patternOrLast r.text
      let re ← orRaise (host.compileRE pattern)
      modify fun e => { e with lastRE := pattern }
      let n ← search re (c=47)
      return some (n,r.rest)
    else if c=43 ∨ c=45 then do return some ((← get).buffer.current,s)
    else if isDigit c then return some (atoi (s.takeWhile isDigit),s.dropWhile isDigit)
    else return none

/-- `parseAddress`: the line number and what follows it; `none` when there is no address. -/
def parseAddress (s : Bytes) : Ed W (Option (ℤ×Bytes)) := do
  match ← parseBase host (skipBlank s) with
  | none => return none
  | some (base,rest) =>
    let (value,rest) := parseOffsets (rest.length+1) base rest
    if value<0 ∨ (← get).buffer.last<value then fail "invalid address"
    else return some (value,rest)

def parseMore : ℕ→List ℤ→Bytes→Ed W (List ℤ×Bytes)
  | 0,out,s => return (out,s)
  | fuel+1,out,s =>
    match skipBlank s with
    | [] => return (out,[])
    | sep::t =>
      if sep=44 ∨ sep=59 then do
        let e ← get
        let before := out.getLast?.getD (if sep=44 then 1 else e.buffer.current)
        onlyIf (sep=59) (setCurrent before)
        let p := skipBlank t
        let out' := if out=[] then [before] else out
        match ← parseAddress host p with
        | some (b,rest) => parseMore fuel (out'++[b]) rest
        | none => parseMore fuel (out'++[if out=[] then e.buffer.last else before]) p
      else return (out,sep::t)

/-- `parseAddresses`: the addresses of a command and the rest of its line. -/
def parseAddresses (s : Bytes) : Ed W (List ℤ×Bytes) := do
  let s := skipBlank s
  match ← parseAddress host s with
  | some (a,rest) => parseMore host (s.length+1) [a] rest
  | none => parseMore host (s.length+1) [] s

def oneAddress (addrs : List ℤ) (dflt : ℤ) (allowZero : Bool) : Ed W ℤ := do
  let a := addrs.getLast?.getD dflt
  refuse (a<0 ∨ (← get).buffer.last<a ∨ (!allowZero ∧ a=0)) "invalid address"
  return a

def twoAddresses (addrs : List ℤ) (dfltFirst dfltLast : ℤ) (allowZero : Bool) : Ed W (ℤ×ℤ) := do
  let last := addrs.getLast?.getD dfltLast
  let first := addrs.dropLast.getLast?.getD (addrs.getLast?.getD dfltFirst)
  refuse (last<first ∨ first<0 ∨ (← get).buffer.last<last ∨ (!allowZero ∧ first=0))
    "invalid address"
  return (first,last)

def printed (style : Style) (n : ℤ) (line : Bytes) : Bytes :=
  match style with
  | .n => itoa n++[9]++line
  | .l => listLine host.isPrint host.byteLocale line
  | .p => line

def printFrom (style : Style) : ℕ→ℤ→Ed W Unit
  | 0,_ => return
  | left+1,n => do
    println (printed host style n ((← get).line n))
    printFrom style left (n+1)

def printLinesOf (first last : ℤ) (style : Style) : Ed W Unit := do
  printFrom host style (last+1-first).toNat first
  setCurrent last

def printOne (addrs : List ℤ) (style : Style) : Ed W Unit := do
  let a ← oneAddress addrs (← get).buffer.current false
  printLinesOf host a a style

def printRange (addrs : List ℤ) (style : Style) : Ed W Unit := do
  let e ← get
  let (first,last) ← twoAddresses addrs e.buffer.current e.buffer.current false
  printLinesOf host first last style

def printStyle (style : Option Style) : Ed W Unit := do
  match style with
  | none => return
  | some style => printOne host [(← get).buffer.current] style

def printStyleIf (style : Option Style) : Ed W Unit := do
  onlyIf (0<(← get).buffer.current) (printStyle host style)

def suffix (arg : Bytes) : Ed W (Option Style) :=
  match printSuffix arg with
  | some style => return style
  | none => fail "unexpected command suffix"

def fileDiagnostic {α : Type} (text : Bytes) : Ed W α := do
  modify fun e => { e with err := e.err++text++[newline] }
  raise text

def hostRead (name : Bytes) : Ed W (Except Bytes Bytes) := do
  let e ← get
  let (r,w) := host.read name e.world
  set { e with world := w }
  return r

def hostShell (command input : Bytes) : Ed W (Bytes×Option Bytes) := do
  match host.shell with
  | none => fail "shell escapes unavailable"
  | some shell =>
    let e ← get
    let (r,w) := shell command input e.world
    set { e with world := w }
    return r

def hostWrite (f : Bytes→Bytes→W→Option Bytes×W) (name data : Bytes) : Ed W Unit := do
  let e ← get
  let (r,w) := f name data e.world
  set { e with world := w }
  match r with
  | none => return
  | some text => fileDiagnostic text

def separated (arg : Bytes) : Ed W Unit :=
  match arg with
  | [] => return
  | c::_ => if isBlank c then return else fail "file argument requires a separating blank"

inductive Sink where
  | shell | append | file
  deriving DecidableEq,Repr

def sendTo (sink : Sink) (name data : Bytes) : Ed W Unit :=
  match sink with
  | .shell => do
    let (out,err) ← hostShell host name data
    match err with
    | some text => raise text
    | none => modify fun e => { e with out := e.out++out }
  | .append =>
    match host.append with
    | none => fail "append unavailable"
    | some f => hostWrite f name data
  | .file => hostWrite host.write name data

def writeRange (addrs : List ℤ) : Ed W (ℤ×ℤ) := do
  let e ← get
  if addrs=[] then return (1,e.buffer.last) else twoAddresses addrs 1 e.buffer.last false

def write (addrs : List ℤ) (arg : Bytes) (appendMode : Bool) : Ed W Unit := do
  separated arg
  let shellCommand : Bool := (trimBlank arg).head?=some 33
  let name := if shellCommand then trimBlank (trimBlank arg).tail else trimBlank arg
  refuse (shellCommand ∧ name=[]) "shell command required"
  let e ← get
  let name := if name=[] then e.filename else name
  refuse (name=[]) "no current filename"
  let (first,last) ← writeRange addrs
  let data := joinLines (if first≤last ∧ 0<last then e.lineRange first last else [])
  sendTo host (if shellCommand then .shell else if appendMode then .append else .file) name data
  modify fun e => { e with
    filename := if !shellCommand ∧ e.filename=[] then name else e.filename
    buffer := { e.buffer with
      dirty :=
        if !shellCommand ∧ !appendMode ∧ first=1 ∧ last=e.buffer.last then false
        else e.buffer.dirty }
    audit :=
      if !shellCommand ∧ !appendMode ∧ first=1 ∧ last=e.buffer.last then
        e.audit++[.written e.inGlobal e.buffer.lines]
      else e.audit
    warned := false }
  onlyIf (!host.silent) (println (itoa data.length))

def shellOutput (command : Bytes) : Ed W Bytes := do
  refuse host.shell.isNone "shell escapes unavailable"
  refuse (trimBlank command=[]) "shell command required"
  let (out,err) ← hostShell host (trimBlank command) []
  match err with
  | some text => raise text
  | none => return out

def fileData (name : Bytes) : Ed W Bytes := do
  refuse (name=[]) "no current filename"
  match ← hostRead host name with
  | .error text => fileDiagnostic text
  | .ok data => return data

def readData (shellCommand : Bool) (name : Bytes) : Ed W Bytes :=
  if shellCommand then shellOutput host name.tail else fileData host name

def readFile (after : ℤ) (arg : Bytes) : Ed W Unit := do
  let shellCommand : Bool := (trimBlank arg).head?=some 33
  let e ← get
  let name := if trimBlank arg=[] then e.filename else trimBlank arg
  let data ← readData host shellCommand name
  appendLines after (splitText data)
  modify fun e => { e with
    filename := if !shellCommand ∧ e.filename=[] then name else e.filename }
  onlyIf (!host.silent) (println (itoa data.length))

/-- The expansion loop of `prepareShell`; the flag tells whether anything was replaced. -/
def expandShell (filename : Bytes) : Bytes→Option (Bytes×Bool)
  | [] => some ([],false)
  | 92::37::s => (expandShell filename s).map fun r => (37::r.1,r.2)
  | 92::33::s => (expandShell filename s).map fun r => (33::r.1,r.2)
  | 37::s =>
    if filename=[] then none else (expandShell filename s).map fun r => (filename++r.1,true)
  | c::s => (expandShell filename s).map fun r => (c::r.1,r.2)

def prepareShell (command : Bytes) : Ed W (Bytes×Bool) := do
  refuse (command=[]) "shell command required"
  let e ← get
  let repeated : Bool := command.head?=some 33
  refuse (repeated ∧ e.lastShell=[]) "no previous shell command"
  match expandShell e.filename (if repeated then e.lastShell++command.tail else command) with
  | none => fail "no current filename"
  | some (expanded,replaced) => do
    modify fun e => { e with lastShell := expanded }
    return (expanded,repeated || replaced)

def shellEscape (arg : Bytes) : Ed W Unit := do
  refuse host.shell.isNone "shell escapes unavailable"
  let (command,expanded) ← prepareShell (trimBlank arg)
  onlyIf expanded (println command)
  let (out,err) ← hostShell host command []
  modify fun e => { e with out := e.out++out }
  match err with
  | some text => raise text
  | none => onlyIf (!host.silent) (println [33])

end

end Coreutils.EdAddress
