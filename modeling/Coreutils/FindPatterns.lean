import Coreutils.GoText

/-!
# The file name patterns of find

`fnmatchLocale` and `fnmatchUTF8` of `cmds/find/find.go` with their bracket scanners, and
`CUTF8Class` of `pkg/locale/cutf8.go`: one algorithm over two models of a character, a byte and a
code point, kept as its number. The locale is C or C.UTF-8, so the German branches are not taken.
-/

namespace Coreutils.FindPatterns
open GoText

inductive ClassName where
  | alpha | digit | alnum | upper | lower | space | blank | punct | cntrl | graph | print | xdigit
  deriving DecidableEq,Repr

def className? (s : Bytes) : Option ClassName :=
  [(ascii "alpha",ClassName.alpha),(ascii "digit",.digit),(ascii "alnum",.alnum),
    (ascii "upper",.upper),(ascii "lower",.lower),(ascii "space",.space),
    (ascii "blank",.blank),(ascii "punct",.punct),(ascii "cntrl",.cntrl),
    (ascii "graph",.graph),(ascii "print",.print),(ascii "xdigit",.xdigit)].lookup s

def isAlphaC (c : ℕ) : Bool := (65≤c && c≤90) || (97≤c && c≤122)

def isDigitC (c : ℕ) : Bool := 48≤c && c≤57

def lowerASCII (c : ℕ) : ℕ := if 65≤c ∧ c≤90 then c+97-65 else c

def flipASCII (c : ℕ) : ℕ :=
  if 65≤c ∧ c≤90 then c+97-65 else if 97≤c ∧ c≤122 then c-97+65 else c

def classFn : ClassName→ℕ→Bool
  | .alpha,c => isAlphaC c
  | .digit,c => isDigitC c
  | .alnum,c => isAlphaC c || isDigitC c
  | .upper,c => 65≤c && c≤90
  | .lower,c => 97≤c && c≤122
  | .space,c => c == 32 || (9≤c && c≤13)
  | .blank,c => c == 32 || c == 9
  | .punct,c => 32<c && c<127 && !isAlphaC c && !isDigitC c
  | .cntrl,c => c<32 || c == 127
  | .graph,c => 32<c && c<127
  | .print,c => 32≤c && c<127
  | .xdigit,c => isDigitC c || (97≤lowerASCII c && lowerASCII c≤102)

def eqByte (fold : Bool) (a b : ℕ) : Bool := a == b || (fold && lowerASCII a == lowerASCII b)

/-- The predicates and case mappings of `unicode`, with what they are on ASCII and `RuneError`. -/
structure Unicode where
  isLetter : ℕ→Bool
  isNumber : ℕ→Bool
  isUpper : ℕ→Bool
  isLower : ℕ→Bool
  isSpace : ℕ→Bool
  isControl : ℕ→Bool
  isGraphic : ℕ→Bool
  /-- Membership in `unicode.Zs`. -/
  isZs : ℕ→Bool
  toLower : ℕ→ℕ
  toUpper : ℕ→ℕ
  isLetter_ascii : ∀c<128,isLetter c=isAlphaC c
  isUpper_ascii : ∀c<128,isUpper c=(65≤c && c≤90)
  isLower_ascii : ∀c<128,isLower c=(97≤c && c≤122)
  isSpace_ascii : ∀c<128,isSpace c=(c == 32 || (9≤c && c≤13))
  isControl_ascii : ∀c<128,isControl c=(c<32 || c == 127)
  isGraphic_ascii : ∀c<128,isGraphic c=(32≤c && c<127)
  isZs_ascii : ∀c<128,isZs c=(c == 32)
  toLower_ascii : ∀c<128,toLower c=lowerASCII c
  toUpper_ascii : ∀c<128,toUpper c=if 97≤c ∧ c≤122 then c-97+65 else c
  toLower_error : toLower 0xfffd=0xfffd
  toUpper_error : toUpper 0xfffd=0xfffd

section
variable (u : Unicode)

def cutf8NoBreak (r : ℕ) : Bool := r == 0xa0 || r == 0x2007 || r == 0x202f

def cutf8Space (r : ℕ) : Bool := u.isSpace r && !cutf8NoBreak r

def cutf8Print (r : ℕ) : Bool := u.isGraphic r

def cutf8Alpha (r : ℕ) : Bool := u.isLetter r || (127<r && u.isNumber r)

def cutf8Class : ClassName→ℕ→Bool
  | .alpha,r => cutf8Alpha u r
  | .digit,r => 48≤r && r≤57
  | .alnum,r => cutf8Alpha u r || (48≤r && r≤57)
  | .upper,r => u.isUpper r
  | .lower,r => u.isLower r
  | .space,r => cutf8Space u r
  | .blank,r => r == 9 || r == 32 || (u.isZs r && !cutf8NoBreak r)
  | .cntrl,r => u.isControl r
  | .graph,r => cutf8Print u r && !cutf8Space u r
  | .print,r => cutf8Print u r
  | .punct,r =>
    (cutf8Print u r && !cutf8Space u r) && !(cutf8Alpha u r || (48≤r && r≤57))
  | .xdigit,r => (48≤r && r≤57) || (97≤r && r≤102) || (65≤r && r≤70)

def maxRune : ℕ := 0x10ffff

def invalidCharBase : ℕ := maxRune+1

/-- `decodeChar`: the code point and its length; other bytes are kept apart from code points. -/
def decodeChar (s : Bytes) : ℕ×ℕ :=
  let (r,n) := decodeRune s
  if r=runeError ∧ n=1 then (invalidCharBase+(s.headD 0).toNat,1) else (r,n)

def eqRune (fold : Bool) (a b : ℕ) : Bool :=
  if a=b then true
  else if !fold || a>maxRune || b>maxRune then false
  else u.toLower a == u.toLower b || u.toUpper a == u.toUpper b

end

/-- What the two matchers ask about characters. -/
structure CharModel where
  /-- The first character of a text and its length in bytes. -/
  decode : Bytes→ℕ×ℕ
  eq : ℕ→ℕ→Bool
  inClass : ClassName→ℕ→Bool
  /-- Whether an equivalence class or a collating symbol holds the character. -/
  inElement : Bytes→ℕ→Bool
  inRange : ℕ→ℕ→ℕ→Bool

def byteModel (fold : Bool) : CharModel where
  decode s := ((s.headD 0).toNat,1)
  eq := eqByte fold
  inClass name c := classFn name c || (fold && classFn name (flipASCII c))
  inElement element c :=
    match element with
    | [e] => eqByte fold e.toNat c
    | _ => false
  inRange lo hi c :=
    if fold then lowerASCII lo≤lowerASCII c && lowerASCII c≤lowerASCII hi
    else lo≤c && c≤hi

/-- The range test of `matchClassUTF8` after folding. -/
def inRuneRange (lo hi r : ℕ) : Bool :=
  if hi>maxRune ∧ r>maxRune ∧ lo≤0xff then
    let rawLo : ℤ := if lo>maxRune then lo-invalidCharBase else lo
    rawLo≤(r : ℤ)-invalidCharBase && (r : ℤ)-invalidCharBase≤(hi : ℤ)-invalidCharBase
  else if r>maxRune ∨ lo>maxRune ∨ hi>maxRune then r == lo || r == hi
  else lo≤r && r≤hi

def utf8Model (u : Unicode) (fold : Bool) : CharModel where
  decode := decodeChar
  eq := eqRune u fold
  inClass name c :=
    cutf8Class u name c ||
      (fold && (cutf8Class u name (u.toUpper c) || cutf8Class u name (u.toLower c)))
  inElement element c :=
    let (er,n) := decodeChar element
    n == element.length && eqRune u fold er c
  inRange lo hi c :=
    if fold then inRuneRange (u.toLower lo) (u.toLower hi) (u.toLower c) else inRuneRange lo hi c

section
variable (m : CharModel)

/-- The element between `[:` and `:]`, and what follows it; `kind` is the byte that marks it. -/
def closeElement (kind : UInt8) : Bytes→Option (Bytes×Bytes)
  | a::b::t =>
    if a=kind ∧ b=93 then some ([],t)
    else (closeElement kind (b::t)).map fun (e,rest) => (a::e,rest)
  | _ => none

def inNamed (kind : UInt8) (element : Bytes) (c : ℕ) : Bool :=
  if kind=58 then ((className? element).map fun name => m.inClass name c).getD false
  else m.inElement element c

/-- A member of a bracket, or an end of a range, with the backslash before it. -/
def member (p : Bytes) : ℕ×Bytes :=
  let (c,n) := m.decode p
  if c=92 ∧ n<p.length then
    let (c,n') := m.decode (p.drop n)
    (c,(p.drop n).drop n')
  else (c,p.drop n)

def rangeFollows (p : Bytes) : Bool :=
  match p with
  | a::b::_ => a == 45 && b != 93
  | _ => false

/-- The loop of a bracket scanner; nothing if the bracket is not closed. Each turn reads a byte. -/
def scanClass (c : ℕ) : ℕ→Bool→Bool→Bytes→Option (Bool×Bytes)
  | 0,_,_,_ | _,_,_,[] => none
  | fuel+1,first,matched,b::t =>
    if b=93 ∧ first=false then some (matched,t)
    else if b=91 ∧ (t.head?=some 58 ∨ t.head?=some 61 ∨ t.head?=some 46) then do
      let kind := t.headD 0
      let (element,rest) ← closeElement kind t.tail
      scanClass c fuel false (matched || inNamed m kind element c) rest
    else
      let (lo,rest) := member m (b::t)
      let (hi,rest) := if rangeFollows rest then member m rest.tail else (lo,rest)
      scanClass c fuel false (matched || m.inRange lo hi c) rest

def matchClass (p : Bytes) (c : ℕ) : Option (Bool×Bytes) :=
  let neg := p.head?=some 33 ∨ p.head?=some 94
  let p := if neg then p.tail else p
  (scanClass m c (p.length+1) true false p).map fun (matched,rest) => (matched != neg,rest)

def charTails : ℕ→Bytes→List Bytes
  | 0,name => [name]
  | fuel+1,name => name::if name=[] then [] else charTails fuel (name.drop (m.decode name).2)

def literal (pattern name : Bytes) : Option (Bytes×Bytes) :=
  if name=[] then none
  else
    let (pc,pn) := m.decode pattern
    let (nc,nn) := m.decode name
    if m.eq pc nc then some (pattern.drop pn,name.drop nn) else none

/-- The matcher; each turn and each call reads a byte of the pattern. -/
def fnmatch : ℕ→Bytes→Bytes→Bool
  | 0,_,_ => false
  | _,[],name => name=[]
  | fuel+1,b::p,name =>
    if b=42 then
      let p := p.dropWhile (·=42)
      p=[] || (charTails m name.length name).any (fnmatch fuel p)
    else if b=63 then
      name≠[] && fnmatch fuel p (name.drop (m.decode name).2)
    else if b=91 then
      name≠[] &&
        let (c,n) := m.decode name
        match matchClass m p c with
        | none => m.eq 91 c && fnmatch fuel p (name.drop n)
        | some (matched,rest) => matched && fnmatch fuel rest (name.drop n)
    else
      let pattern := if b=92 ∧ p≠[] then p else b::p
      match literal m pattern name with
      | none => false
      | some (pattern,name) => fnmatch fuel pattern name

end

def fnmatchLocale (pattern name : Bytes) (fold : Bool) : Bool :=
  fnmatch (byteModel fold) (pattern.length+1) pattern name

def fnmatchUTF8 (u : Unicode) (pattern name : Bytes) (fold : Bool) : Bool :=
  fnmatch (utf8Model u fold) (pattern.length+1) pattern name

example : fnmatchLocale (ascii "*[[:alpha:]-].[!a-c]") (ascii "x1-.d") false=true := by decide

end Coreutils.FindPatterns
