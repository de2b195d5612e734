import Coreutils.GoText

/-!
# The text of ed commands

The scanners of `cmds/internal/editor`: delimited expressions, flags, replacements, the lines of
files and the `l` listing. Positions in a line are the texts that start there.
-/

namespace Coreutils.EdText
open List GoText

def skipBlank (s : Bytes) : Bytes := s.dropWhile isBlank

def trimRightBlank (s : Bytes) : Bytes := (skipBlank s.reverse).reverse

def trimBlank (s : Bytes) : Bytes := trimRightBlank (skipBlank s)

def trimNewline (s : Bytes) : Bytes := if s.getLast?=some newline then s.dropLast else s

def hasOddTrailingBackslashes (s : Bytes) : Bool :=
  (s.reverse.takeWhile (· == backslash)).length%2 == 1

def stripContinuation (s : Bytes) : Bytes := if hasOddTrailingBackslashes s then s.dropLast else s

def lastLine (s : Bytes) : Bytes := (s.reverse.takeWhile (· != newline)).reverse

def splitText (data : Bytes) : List Bytes :=
  if data=[] then [] else (trimNewline data).splitOn newline

def joinLines (lines : List Bytes) : Bytes := printLines lines

/-- The length of the part of `s` up to the end of the first occurrence of `term`. -/
def throughTerm (term : Bytes) : Bytes→Option ℕ
  | [] => if term=[] then some 0 else none
  | c::s => if term.isPrefixOf (c::s) then some term.length else (throughTerm term s).map (·+1)

/-- The member loop of `bracketEnd`: the length of the list up to its closing bracket. -/
def bracketMembers : ℕ→Bytes→Option ℕ
  | 0,_ | _+1,[] => none
  | fuel+1,c::s =>
    if c=93 then some 1
    else
      match c,s with
      | 91,k::t =>
        -- [:class:], [=equiv=] and [.coll.] hold brackets of their own
        if k=58 ∨ k=61 ∨ k=46 then do
          let n ← throughTerm [k,93] t
          let m ← bracketMembers fuel (t.drop n)
          pure (2+n+m)
        else (bracketMembers fuel s).map (·+1)
      | _,_ => (bracketMembers fuel s).map (·+1)

/-- `bracketEnd` for the text after an opening bracket: the length of the bracket expression. -/
def bracketEnd (s : Bytes) : Option ℕ :=
  let n₁ := if s.head?=some 94 then 1 else 0
  let n₂ := if (s.drop n₁).head?=some 93 then n₁+1 else n₁
  (bracketMembers (s.length+1) (s.drop n₂)).map (1+n₂+·)

/-- The text a scan has read, what follows the delimiter, and whether there was one. -/
structure Scanned where
  text : Bytes
  rest : Bytes
  closed : Bool
  deriving DecidableEq,Repr

def Scanned.prepend (t : Bytes) (r : Scanned) : Scanned := { r with text := t++r.text }

/-- The scan of `scanRE`, which keeps bracket expressions together, and of `delimitedBy`. -/
def scanTo (brackets : Bool) (delim : Bytes) : ℕ→Bytes→Scanned
  | 0,_ | _+1,[] => ⟨[],[],false⟩
  | fuel+1,c::s =>
    if delim.isPrefixOf (c::s) then ⟨[],(c::s).drop delim.length,true⟩
    else if c=backslash ∧ delim.isPrefixOf s then
      (scanTo brackets delim fuel (s.drop delim.length)).prepend delim
    else if c=backslash ∧ s≠[] then
      (scanTo brackets delim fuel s.tail).prepend (c::s.take 1)
    else
      match (if brackets ∧ c=91 then bracketEnd s else none) with
      | some n => (scanTo brackets delim fuel ((c::s).drop n)).prepend ((c::s).take n)
      | none => (scanTo brackets delim fuel s).prepend [c]

def scanRE (s delim : Bytes) : Scanned := scanTo true delim (s.length+1) s

def delimitedBy (s delim : Bytes) : Scanned := scanTo false delim (s.length+1) s

example : scanRE (ascii "a[/]b\\/c/x") (ascii "/")=⟨ascii "a[/]b/c",ascii "x",true⟩ := by decide

def commandDelimiter (byteLocale : Bool) (s : Bytes) : Bytes :=
  if byteLocale then s.take 1 else s.take (decodeRune s).2

def badDelimiter (delim : Bytes) : Bool :=
  delim == [32] || delim == [newline] || delim == [backslash]

/-- The text after an expression that opens with `c`. -/
def skipExpression (c : UInt8) : Bytes→Bytes
  | [] => []
  | d::s =>
    if d=c then s
    else if d=backslash then
      match s with
      | [] => []
      | _::t => skipExpression c t
    else skipExpression c s

/-- `commandLetter`; zero when the line holds none. -/
def commandLetterFrom : ℕ→Bytes→UInt8
  | 0,_ | _+1,[] => 0
  | fuel+1,c::s =>
    if isBlank c || c == 44 || c == 59 || c == 43 || c == 45 || c == 46 || c == 36 || isDigit c then
      commandLetterFrom fuel s
    else if c=39 then commandLetterFrom fuel s.tail
    else if c=47 ∨ c=63 then commandLetterFrom fuel (skipExpression c s)
    else c

def commandLetter (line : Bytes) : UInt8 := commandLetterFrom (line.length+1) line

/-- The commands by their letters; `bang` is `!` and `equals` is `=`. -/
inductive Command where
  | a | i | c | d | j | k | m | t | p | n | l | equals | s | w | W | r | u | g | v | G | V | P
  | bang | e | E | q | Q | f | h | H | unknown
  deriving DecidableEq,Repr

def Command.ofByte : UInt8 → Command
  | 97 => .a
  | 105 => .i
  | 99 => .c
  | 100 => .d
  | 106 => .j
  | 107 => .k
  | 109 => .m
  | 116 => .t
  | 112 => .p
  | 110 => .n
  | 108 => .l
  | 61 => .equals
  | 115 => .s
  | 119 => .w
  | 87 => .W
  | 114 => .r
  | 117 => .u
  | 103 => .g
  | 118 => .v
  | 71 => .G
  | 86 => .V
  | 80 => .P
  | 33 => .bang
  | 101 => .e
  | 69 => .E
  | 113 => .q
  | 81 => .Q
  | 102 => .f
  | 104 => .h
  | 72 => .H
  | _ => .unknown

def Command.isGlobal : Command→Bool
  | .g | .G | .v | .V => true
  | _ => false

inductive Style where
  | p | l | n
  deriving DecidableEq,Repr

def style? (c : UInt8) : Option Style :=
  if c=112 then some .p else if c=108 then some .l else if c=110 then some .n else none

/-- `printSuffix`; the outer `none` is its error. -/
def printSuffix (arg : Bytes) : Option (Option Style) :=
  match arg with
  | [] => some none
  | [c] => (style? c).map some
  | _ => none

structure SubFlags where
  global : Bool := false
  count : ℤ := 0
  style : Option Style := none
  deriving DecidableEq,Repr

inductive FlagError where
  | count | flag
  deriving DecidableEq,Repr

def parseSubFlagsFrom : ℕ→Bytes→SubFlags→Except FlagError SubFlags
  | 0,_,f | _+1,[],f => .ok f
  | fuel+1,c::s,f =>
    if c=103 then parseSubFlagsFrom fuel s { f with global := true }
    else if (style? c).isSome then parseSubFlagsFrom fuel s { f with style := style? c }
    else if isDigit c then
      let ds := (c::s).takeWhile isDigit
      if maxInt<decimal ds ∨ decimal ds=0 then .error .count
      else parseSubFlagsFrom fuel ((c::s).dropWhile isDigit) { f with count := decimal ds }
    else if isBlank c then parseSubFlagsFrom fuel s f
    else .error .flag

def parseSubFlags (s : Bytes) : Except FlagError SubFlags := parseSubFlagsFrom (s.length+1) s {}

/-- A vector of match positions: the whole match, and the groups that took part. -/
structure Match where
  start : ℕ
  stop : ℕ
  groups : List (Option (ℕ×ℕ)) := []
  deriving DecidableEq,Repr

def expandReplacement (src : Bytes) (m : Match) : Bytes→Bytes
  | [] => []
  | 38::r => slice src m.start m.stop++expandReplacement src m r
  | 92::c::r =>
    (if 49≤c ∧ c≤57 then
      ((m.groups[c.toNat-49]?).join.map fun g => slice src g.1 g.2).getD []
    else [c])++expandReplacement src m r
  | c::r => c::expandReplacement src m r

def octal (c : UInt8) : Bytes :=
  [48+c/64,48+c/8%8,48+c%8]

def listWidth : ℕ := 76

/-- The unit `l` prints for a rune and the columns it takes. -/
def listUnit (isPrint : ℕ→Bool) (r : ℕ) (encoded : Bytes) : Bytes×ℕ :=
  if r=92 then (ascii "\\\\",2)
  else if r=7 then (ascii "\\a",2)
  else if r=9 then (ascii "\\t",2)
  else if r=8 then (ascii "\\b",2)
  else if r=13 then (ascii "\\r",2)
  else if r=12 then (ascii "\\f",2)
  else if r=11 then (ascii "\\v",2)
  else if r=36 then (ascii "\\$",2)
  else if isPrint r then (encoded,1)
  else (encoded.flatMap fun c => backslash::octal c,4*encoded.length)

/-- The loop of `listLine`: the column is reset by a fold before the unit that passes it. -/
def listFrom (isPrint : ℕ→Bool) (byteMode : Bool) : ℕ→Bytes→ℕ→Bytes
  | 0,_,_ | _+1,[],_ => [36]
  | fuel+1,c::s,col =>
    let (r,size) := if byteMode ∧ 0x80≤c then (runeError,1) else decodeRune (c::s)
    let (unit,width) :=
      if r=runeError ∧ size=1 then (backslash::octal c,4)
      else listUnit isPrint r ((c::s).take size)
    let fold := if listWidth≤col then [backslash,newline] else []
    let col := if listWidth≤col then 0 else col
    fold++unit++listFrom isPrint byteMode fuel ((c::s).drop size) (col+width)

def listLine (isPrint : ℕ→Bool) (byteMode : Bool) (s : Bytes) : Bytes :=
  listFrom isPrint byteMode (s.length+1) s 0

end Coreutils.EdText
