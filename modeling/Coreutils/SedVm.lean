import Coreutils.EdText
import Coreutils.Programs

/-!
# The sed machine

The virtual machine of `gosed`: its state, its instructions and `Read`, which runs the program until
the buffer of the caller is full. An instruction may end in an error, and the state at the error is
kept: `Read` goes on from it. Matchers, files and the input are given.
-/

namespace Coreutils.SedVm
open GoText EdText Programs

inductive Err where
  | fullBuffer
  | eof
  | failed (text : Bytes)
  deriving DecidableEq,Repr

/-- `sedRegexp`. The matches of a text are in order and do not overlap. -/
structure Regexp where
  matchString : Bytes→Except Bytes Bool
  findAll : Bytes→Except Bytes (List Match)
  expand : Bytes→Bytes→Match→Except Bytes Bytes

/-- A `bufio.Reader`: its unread bytes, what the reads of the source return, and the error after
them, `none` at the end of the file. -/
structure Input where
  buffered : Bytes := []
  reads : List Bytes := []
  stop : Option Bytes := none
  deriving DecidableEq,Repr

def cutLine : Bytes→Option (Bytes×Bytes)
  | [] => none
  | c::s => if c=newline then some ([c],s) else (cutLine s).map fun (l,r) => (c::l,r)

def readString (stop : Option Bytes) : Bytes→List Bytes→Bytes×Option Err×Input
  | buffered,[] =>
    match cutLine buffered with
    | some (line,rest) => (line,none,{ buffered := rest,reads := [],stop })
    | none => (buffered,some (stop.elim .eof .failed),{ stop })
  | buffered,c::cs =>
    match cutLine buffered with
    | some (line,rest) => (line,none,{ buffered := rest,reads := c::cs,stop })
    | none => readString stop (buffered++c) cs

/-- The buffer of the caller, as the space left and the bytes in it, and the text that did not fit.
With `room` none, as no caller has it, it has no end: the others are compared with that run. -/
structure Out where
  room : Option ℕ := none
  sent : Bytes := []
  overflow : Bytes := []
  deriving DecidableEq,Repr

/-- The state of a range of addresses, with the target of a relative second address. -/
structure Range where
  isOn : Bool := false
  offFrom : ℤ := 0
  target : ℤ := 0
  deriving DecidableEq,Repr

inductive Act where
  | wrote (text : Bytes)
  | queued (text : Bytes)
  | flushed (text : Bytes)
  | took
  deriving DecidableEq,Repr

/-- `vm`. `source` is the offset of a seekable input, and `writes` the calls of `writeFile`. `trace`
is not in the source: it records what was done, and nothing reads it. -/
structure Vm where
  nxtl : Bytes := []
  pat : Bytes := []
  hold : Bytes := []
  appl : Option Bytes := none
  lastl : Bool := false
  patNL : Bool := false
  nxtlNL : Bool := false
  ip : ℕ := 0
  input : Input
  source : Option ℤ := none
  lineno : ℤ := -1
  modified : Bool := false
  lastRE : Option Regexp := none
  ranges : ℕ→Range := fun _ => {}
  writes : List (Bytes×Bytes) := []
  out : Out := {}
  trace : List Act := []

/-- The functions the machine is given. Those on files see the writes made so far. -/
structure Host where
  readFile : List (Bytes×Bytes)→Bytes→Option Bytes := fun _ _ => none
  writeFile : List (Bytes×Bytes)→Bytes→Bytes→Option Bytes := fun _ _ _ => none
  isPrint : ℕ→Bool := fun _ => true

abbrev Sed (α : Type) := Prog Vm Err α

inductive Cond where
  | number (n : ℤ)
  | relative (lines : ℤ)
  | eof
  | regexp (re : Regexp) (null : Bool)

structure Substitute where
  pattern : Regexp
  replacement : Bytes
  which : ℕ := 0
  pflag : Bool := false
  gflag : Bool := false
  wfile : Bytes := []
  null : Bool := false

/-- The instructions. A range and the change command that ends with it share an `id`. -/
inductive Instr where
  | quit
  | swap
  | get
  | hold
  | getapp
  | holdapp
  | branch (target : ℕ)
  | changedBranch (target : ℕ)
  | print
  | printFirstLine
  | deleteFirstLine
  | lineno
  | list
  | fillNext
  | fillNextAppend
  | simplecond (cond : Cond) (metloc unmetloc : ℕ)
  | twocond (id : ℕ) (start stop : Cond) (metloc unmetloc : ℕ)
  | changer (text : Bytes) (guard : Option ℕ)
  | appender (text : Bytes)
  | inserter (text : Bytes)
  | reader (filename : Bytes)
  | writer (filename : Bytes)
  | substitute (s : Substitute)
  | translate (pairs : List (Bytes×Bytes))

/-- Copy what fits and keep the rest; whether it did not fit. -/
def Out.write (o : Out) (str : Bytes) : Bool×Out :=
  match o.room with
  | none => (false,{ o with sent := o.sent++str })
  | some room =>
    if room<str.length then
      (true,{ room := some 0,sent := o.sent++str.take room
              overflow := o.overflow++str.drop room })
    else (false,{ o with room := some (room-str.length),sent := o.sent++str })

def pour (str : Bytes) : Sed Unit := do
  let (full,out) := (← get).out.write str
  modify fun v => { v with out }
  if full then throw .fullBuffer

/-- `writeString`, recorded as `a`. -/
def emit (a : Act) (str : Bytes) : Sed Unit := do
  modify fun v => { v with trace := v.trace++[a] }
  pour str

def writeString (str : Bytes) : Sed Unit := emit (.wrote str) str

def orFail {α : Type} : Except Bytes α→Sed α
  | .ok a => pure a
  | .error text => throw (.failed text)

def when (c : Prop) [Decidable c] (m : Sed Unit) : Sed Unit := if c then m else pure ()

def advance : Sed Unit := modify fun v => { v with ip := v.ip+1 }

def jump (target : ℕ) : Sed Unit := modify fun v => { v with ip := target }

/-- The bytes of the input that the program has not consumed. -/
def Vm.unread (v : Vm) : ℕ :=
  v.input.buffered.length+v.nxtl.length+(if v.nxtlNL then 1 else 0)

/-- A seek to before the start of the file fails and is ignored. -/
def cmdQuit : Sed Unit := do
  modify fun v =>
    { v with source := v.source.map fun off : ℤ => if v.unread≤off then off-v.unread else off }
  throw .eof

def cmdSwap : Sed Unit := modify fun v => { v with pat := v.hold,hold := v.pat,ip := v.ip+1 }

def cmdGet : Sed Unit := modify fun v => { v with pat := v.hold,ip := v.ip+1 }

def cmdHold : Sed Unit := modify fun v => { v with hold := v.pat,ip := v.ip+1 }

def cmdGetapp : Sed Unit :=
  modify fun v => { v with pat := v.pat++newline::v.hold,ip := v.ip+1 }

def cmdHoldapp : Sed Unit :=
  modify fun v => { v with hold := v.hold++newline::v.pat,ip := v.ip+1 }

def cmdChangedBranch (target : ℕ) : Sed Unit := do
  if (← get).modified then modify fun v => { v with ip := target,modified := false } else advance

/-- Write a text, whether it fits or not, and a newline after it if there is one. -/
def writeLine (text : Bytes) (nl : Bool) : Sed Unit := do
  tryCatch (writeString text) fun _ => pure ()
  if nl then writeString [newline]

def cmdPrint : Sed Unit := do
  advance
  let v ← get
  writeLine v.pat v.patNL

def firstLine (s : Bytes) : Bytes := s.takeWhile (·≠newline)

def cmdPrintFirstLine : Sed Unit := do
  advance
  let v ← get
  writeLine (firstLine v.pat) (decide (newline∈v.pat) || v.patNL)

def cmdDeleteFirstLine : Sed Unit :=
  modify fun v =>
    if newline∈v.pat then { v with pat := v.pat.drop ((firstLine v.pat).length+1),ip := 1 }
    else { v with pat := [],ip := 0 }

def cmdLineno : Sed Unit := do
  advance
  writeString (itoa (← get).lineno++[newline])

def octal3 (n : ℕ) : Bytes :=
  let ds := (Nat.toDigits 8 n).map Char.toUInt8
  List.replicate (3-ds.length) 48++ds

/-- What `l` writes for a rune other than a newline. -/
def listRune (isPrint : ℕ→Bool) (r : ℕ) (encoded : Bytes) : Bytes :=
  if r=92 then ascii "\\\\"
  else if r=7 then ascii "\\a"
  else if r=8 then ascii "\\b"
  else if r=12 then ascii "\\f"
  else if r=13 then ascii "\\r"
  else if r=9 then ascii "\\t"
  else if r=11 then ascii "\\v"
  else if isPrint r then encoded
  else backslash::octal3 r

/-- The loop of `cmd_list`, with the line built so far. -/
def listLoop (isPrint : ℕ→Bool) : ℕ→Bytes→Bytes→Sed Unit
  | 0,_,b | _+1,[],b => writeString (b++ascii "$\n")
  | fuel+1,c::s,b =>
    let (r,size) := decodeRune (c::s)
    if r=runeError ∧ size=1 then listLoop isPrint fuel s (b++backslash::octal3 c.toNat)
    else if c=newline then do
      writeString (b++ascii "$\n")
      listLoop isPrint fuel s []
    else listLoop isPrint fuel ((c::s).drop size) (b++listRune isPrint r ((c::s).take size))

def cmdList (host : Host) : Sed Unit := do
  advance
  let pat := (← get).pat
  listLoop host.isPrint (pat.length+1) pat []

/-- Put out a text stored up by `a` and `r`. The queue is emptied whether the text fits or not. -/
def flushText : Option Bytes→Sed Unit
  | none => pure ()
  | some text => withDefer (emit (.flushed text) text) fun _ r => { final r with appl := none }

def flush : Sed Unit := do
  flushText (← get).appl

/-- Take the next line into the pattern space and read the one after it. -/
def fetch : Sed Unit := do
  let v ← get
  let (line,err,input) := readString v.input.stop v.input.buffered v.input.reads
  let nl := line.getLast?=some newline
  let nxtl := if nl then line.dropLast else line
  let read : ℤ := line.length+input.buffered.length-v.input.buffered.length
  modify fun v =>
    { v with
             ip := v.ip+1,pat := v.nxtl,patNL := v.nxtlNL,lineno := v.lineno+1
             modified := false,nxtl,nxtlNL := nl,input,source := v.source.map (·+read)
             lastl := decide (err=some .eof ∧ nxtl=[]) || v.lastl,trace := v.trace++[.took] }
  match err with
  | some (.failed text) => throw (.failed text)
  | _ => pure ()

def refill : Sed Unit := do
  if (← get).lastl then throw .eof else fetch

def cmdFillNext : Sed Unit := do
  flush
  refill

def cmdFillNextAppend : Sed Unit := do
  let pat := (← get).pat
  cmdFillNext
  modify fun v => { v with pat := pat++newline::v.pat }

def resolveNullRE (re : Regexp) (null : Bool) (v : Vm) : Regexp :=
  if null then v.lastRE.getD re else re

/-- `isMet`; a relative address has its target in the state of its range. -/
def isMet (target : ℤ) : Cond→Sed Bool
  | .number n => do return (← get).lineno == n
  | .relative _ => do return decide (target≤(← get).lineno)
  | .eof => do return (← get).lastl
  | .regexp re null => do
    let v ← get
    let re := resolveNullRE re null v
    let answer ← orFail (re.matchString v.pat)
    modify fun v => { v with lastRE := some re }
    return answer

def cmdSimplecond (cond : Cond) (metloc unmetloc : ℕ) : Sed Unit := do
  if ← isMet 0 cond then jump metloc else jump unmetloc

/-- The state of a range whose first address is met on line `lineno`. -/
def startRange (stop : Cond) (lineno : ℤ) (r : Range) : Range :=
  match stop with
  | .relative lines =>
    { isOn := true,offFrom := if lines=0 then lineno else r.offFrom
      target := wrap64 (lineno+lines) }
  | .number n => { r with isOn := true,offFrom := if n≤lineno then lineno else r.offFrom }
  | _ => { r with isOn := true }

def cmdTwocond (id : ℕ) (start stop : Cond) (metloc unmetloc : ℕ) : Sed Unit := do
  let v ← get
  let lineno := v.lineno
  let r := v.ranges id
  let r := if r.isOn ∧ 0<r.offFrom ∧ r.offFrom<lineno then
    { r with isOn := false,offFrom := 0 } else r
  let commit (r : Range) (target : ℕ) : Sed Unit :=
    modify fun v => { v with ranges := Function.update v.ranges id r,ip := target }
  if r.isOn then
    if ← isMet r.target stop then commit { r with offFrom := lineno } metloc else commit r metloc
  else
    if ← isMet 0 start then commit (startRange stop lineno r) metloc else commit r unmetloc

def isLastLine (v : Vm) (id : ℕ) : Bool := (v.ranges id).isOn && (v.ranges id).offFrom == v.lineno

def cmdChanger (text : Bytes) (guard : Option ℕ) : Sed Unit := do
  jump 0
  let v ← get
  if guard.all (isLastLine v) then writeString text

def queue (text : Bytes) : Sed Unit :=
  modify fun v =>
    { v with appl := some (v.appl.getD []++text),trace := v.trace++[.queued text] }

def cmdAppender (text : Bytes) : Sed Unit := do
  advance
  queue text

def cmdInserter (text : Bytes) : Sed Unit := do
  advance
  writeString text

/-- A file that cannot be read counts as empty. -/
def queueFile : Option Bytes→Sed Unit
  | some text => queue text
  | none => pure ()

def cmdReader (host : Host) (filename : Bytes) : Sed Unit := do
  advance
  queueFile (host.readFile (← get).writes filename)

/-- A call of `writeFile`, which is recorded. -/
def writeFile (host : Host) (filename text : Bytes) : Sed Unit := do
  let writes := (← get).writes
  modify fun v => { v with writes := writes++[(filename,text)] }
  match host.writeFile writes filename text with
  | some err => throw (.failed err)
  | none => pure ()

def cmdWriter (host : Host) (filename : Bytes) : Sed Unit := do
  advance
  writeFile host filename (← get).pat

def substReplaceAll (src : Bytes) (pattern : Regexp) (replacement : Bytes) :
    ℕ→List Match→Except Bytes Bytes
  | endpt,[] => .ok (src.drop endpt)
  | endpt,m::ms => do
    let exp ← pattern.expand replacement src m
    let rest ← substReplaceAll src pattern replacement m.stop ms
    return slice src endpt m.start++exp++rest

/-- The pattern space after the replacement, if there is one to make. -/
def Substitute.replaced (s : Substitute) (pattern : Regexp) (pat : Bytes) :
    Except Bytes (Option Bytes) := do
  let ms ← pattern.findAll pat
  if s.which < ms.length then
    let ms := if s.gflag then ms.drop s.which else (ms.drop s.which).take 1
    some <$> substReplaceAll pat pattern s.replacement 0 ms
  else return none

def cmdSubstitute (host : Host) (s : Substitute) : Sed Unit := do
  let v ← get
  let pattern := resolveNullRE s.pattern s.null v
  match ← orFail (s.replaced pattern v.pat) with
  | none => modify fun v => { v with lastRE := some pattern,ip := v.ip+1 }
  | some pat => do
    modify fun v => { v with lastRE := some pattern,ip := v.ip+1,pat,modified := true }
    when s.pflag (writeLine pat v.patNL)
    when (s.wfile≠[]) (writeFile host s.wfile pat)

/-- `strings.NewReplacer` and `Replace`: the first pair whose text is found, at each place. The
counter passes over what was replaced. -/
def replace (pairs : List (Bytes×Bytes)) : ℕ→Bytes→Bytes
  | _,[] => []
  | n+1,_::s => replace pairs n s
  | 0,c::s =>
    match pairs.find? fun p => p.1.isPrefixOf (c::s) with
    | some (old,new) => new++replace pairs (old.length-1) s
    | none => c::replace pairs 0 s

def cmdTranslate (pairs : List (Bytes×Bytes)) : Sed Unit :=
  modify fun v => { v with pat := replace pairs 0 v.pat,ip := v.ip+1 }

def exec (host : Host) : Instr→Sed Unit
  | .quit => cmdQuit
  | .swap => cmdSwap
  | .get => cmdGet
  | .hold => cmdHold
  | .getapp => cmdGetapp
  | .holdapp => cmdHoldapp
  | .branch target => jump target
  | .changedBranch target => cmdChangedBranch target
  | .print => cmdPrint
  | .printFirstLine => cmdPrintFirstLine
  | .deleteFirstLine => cmdDeleteFirstLine
  | .lineno => cmdLineno
  | .list => cmdList host
  | .fillNext => cmdFillNext
  | .fillNextAppend => cmdFillNextAppend
  | .simplecond cond metloc unmetloc => cmdSimplecond cond metloc unmetloc
  | .twocond id start stop metloc unmetloc => cmdTwocond id start stop metloc unmetloc
  | .changer text guard => cmdChanger text guard
  | .appender text => cmdAppender text
  | .inserter text => cmdInserter text
  | .reader filename => cmdReader host filename
  | .writer filename => cmdWriter host filename
  | .substitute s => cmdSubstitute host s
  | .translate pairs => cmdTranslate pairs

/-- The loop of `Read`; `none` is an instruction pointer outside the program, or no fuel left. -/
def readLoop (host : Host) (ins : List Instr) : ℕ→Vm→Option (Err×Vm)
  | 0,_ => none
  | fuel+1,v => do
    let i ← ins[v.ip]?
    match exec host i v with
    | .ok _ v => readLoop host ins fuel v
    | .error e v => some (e,v)

def opening : Sed Unit := do
  let v ← get
  if v.lineno = -1 then
    withDefer cmdFillNext fun _ r => { final r with ip := 0 }
  else if v.out.overflow≠[] then do
    -- this text was recorded when it was written
    set { v with out := { v.out with overflow := [] } }
    pour v.out.overflow

/-- The error of `Read`: with bytes to return, a full buffer and the end of the file are none. -/
def readError (e : Err) (sent : Bytes) : Option Err :=
  if (e=.fullBuffer ∨ e=.eof) ∧ sent≠[] then none else some e

/-- The loop, unless what comes before it ended in an error. -/
def readFrom (host : Host) (ins : List Instr) (fuel : ℕ) :
    EStateM.Result Err Vm Unit→Option (Err×Vm)
  | .ok _ v => readLoop host ins fuel v
  | .error e v => some (e,v)

def read (host : Host) (ins : List Instr) (fuel size : ℕ) (v : Vm) : Option (Bytes×Option Err×Vm) :=
  let start := opening { v with out := { v.out with room := some size,sent := [] } }
  (readFrom host ins fuel start).map fun (e,v) => (v.out.sent,readError e v.out.sent,v)

/-- Read with buffers of the sizes given until an error: the bytes, the error and the machine. -/
def readAll (host : Host) (ins : List Instr) : ℕ→(ℕ→ℕ)→Vm→Option (Bytes×Err×Vm)
  | 0,_,_ => none
  | fuel+1,sizes,v => do
    let (sent,err,v) ← read host ins (fuel+1) (sizes 0) v
    match err with
    | some e => some (sent,e,v)
    | none => (readAll host ins fuel (fun i => sizes (i+1)) v).map fun r => (sent++r.1,r.2)

/-- `Wrap`, of a source that can be seeked in or not. -/
def wrap (input : Input) (source : Option ℤ) : Vm := { input,source }

end Coreutils.SedVm
