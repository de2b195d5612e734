import Coreutils.Comparators
import Coreutils.GoText

/-!
# The keys and comparators of sort

`cmds/sort/key.go` and `cmds/sort/compare.go` with `compare` of `sort.go`, in the C locale.
-/

namespace Coreutils.SortKeys
open GoText

structure KeyOpts where
  numeric : Bool := false
  human : Bool := false
  fold : Bool := false
  dict : Bool := false
  generalNum : Bool := false
  ignoreNP : Bool := false
  month : Bool := false
  random : Bool := false
  version : Bool := false
  reverse : Bool := false
  skipSB : Bool := false
  skipEB : Bool := false
  deriving DecidableEq,Repr

structure KeySpec where
  sword : ℤ := 0
  schar : ℤ := 0
  eword : ℤ := -1
  echar : ℤ := 0
  opts : KeyOpts := {}
  deriving DecidableEq,Repr

/-- What is left of a line after one field; `keepLast` leaves a separator at the head. -/
def skipTabField (tab : UInt8) (keepLast : Bool) (s : Bytes) : Bytes :=
  let s := s.dropWhile (· != tab)
  if keepLast then s else s.tail

def skipField (s : Bytes) : Bytes := (s.dropWhile isBlank).dropWhile (!isBlank ·)

/-- The field loop of `begfield`: `words` more fields, as long as the line lasts. -/
def skipWords (tab : Option UInt8) : ℕ→Bytes→Bytes
  | 0,s => s
  | words+1,s =>
    if s=[] then []
    else
      match tab with
      | some tab => skipWords (some tab) words (skipTabField tab false s)
      | none => skipWords none words (skipField s)

/-- The field loop of `limfield`: the last separator stays in a key to the end of its field. -/
def skipLimWords (tab : Option UInt8) (echar : ℤ) : ℕ→Bytes→Bytes
  | 0,s => s
  | words+1,s =>
    if s=[] then []
    else
      match tab with
      | some tab =>
        skipLimWords (some tab) echar words (skipTabField tab (words=0 ∧ echar=0) s)
      | none => skipLimWords none echar words (skipField s)

def begfield (line : Bytes) (k : KeySpec) (tab : Option UInt8) : ℤ :=
  let s := skipWords tab k.sword.toNat line
  let s := if k.opts.skipSB then s.dropWhile isBlank else s
  min (wrap64 (line.length-s.length+k.schar)) line.length

def limfield (line : Bytes) (k : KeySpec) (tab : Option UInt8) : ℤ :=
  let eword := if k.echar=0 then wrap64 (k.eword+1) else k.eword
  let s := skipLimWords tab k.echar eword.toNat line
  if k.echar≠0 then
    let s := if k.opts.skipEB then s.dropWhile isBlank else s
    min (wrap64 (line.length-s.length+k.echar)) line.length
  else line.length-s.length

/-- `extractKey`; `none` is a slice out of range. -/
def extractKey (line : Bytes) (k : KeySpec) (tab : Option UInt8) : Option Bytes :=
  let beg := begfield line k tab
  let lim : ℤ := if k.eword≥0 then limfield line k tab else line.length
  if beg≥lim then some []
  else if beg<0 then none
  else some ((line.take lim.toNat).drop beg.toNat)

def compareBytes : Bytes→Bytes→ℤ
  | [],[] => 0
  | [],_::_ => -1
  | _::_,[] => 1
  | a::as,b::bs => if a<b then -1 else if b<a then 1 else compareBytes as bs

def cmpInt (a b : ℤ) : ℤ := if a<b then -1 else if a>b then 1 else 0

def trimBlanks (s : Bytes) : Bytes := s.dropWhile isBlank

def trimZeros (s : Bytes) : Bytes := s.dropWhile (· == 48)

def trimZerosRight (s : Bytes) : Bytes := (trimZeros s.reverse).reverse

def fractionPart (s : Bytes) : Bytes :=
  match s with
  | 46::t => t.takeWhile isDigit
  | _ => []

def parseNumParts (s : Bytes) : ℤ×Bytes×Bytes :=
  let s := trimBlanks s
  let neg := s.head?=some 45
  let s := if neg then s.tail else s
  let ip := trimZeros (s.takeWhile isDigit)
  let fp := trimZerosRight (fractionPart (s.dropWhile isDigit))
  if ip=[] ∧ fp=[] then (0,[],[]) else (if neg then -1 else 1,ip,fp)

def compareFraction : Bytes→Bytes→ℤ
  | [],[] => 0
  | [],b::bs => if b≠48 then -1 else compareFraction [] bs
  | a::as,[] => if a≠48 then 1 else compareFraction as []
  | a::as,b::bs => if a≠b then (if a<b then -1 else 1) else compareFraction as bs

def magCompare (ia fa ib fb : Bytes) : ℤ :=
  let d := cmpInt ia.length ib.length
  if d≠0 then d
  else
    let d := compareBytes ia ib
    if d≠0 then d else compareFraction fa fb

def numCompare (a b : Bytes) : ℤ :=
  let (sa,ia,fa) := parseNumParts a
  let (sb,ib,fb) := parseNumParts b
  if sa≠sb then cmpInt sa sb
  else
    let m := magCompare ia fa ib fb
    if sa<0 then -m else m

def siOrder (c : UInt8) : ℤ :=
  if c=75 ∨ c=107 then 1
  else if c=77 then 2
  else if c=71 then 3
  else if c=84 then 4
  else if c=80 then 5
  else if c=69 then 6
  else if c=90 then 7
  else if c=89 then 8
  else if c=82 then 9
  else if c=81 then 10
  else 0

/-- What follows the optionally signed, optionally fractional number at the head of `s`. -/
def afterNumber (s : Bytes) : Bytes :=
  let s := if s.head?=some 45 then s.tail else s
  let s := s.dropWhile isDigit
  if s.head?=some 46 then s.tail.dropWhile isDigit else s

def unitOrder (s : Bytes) : ℤ :=
  let o := ((afterNumber s).head?.map siOrder).getD 0
  if s.head?=some 45 then -o else o

def humanCompare (a b : Bytes) : ℤ :=
  let ta := trimBlanks a
  let tb := trimBlanks b
  let d := cmpInt (unitOrder ta) (unitOrder tb)
  if d≠0 then d else numCompare ta tb

def upperByte (c : UInt8) : UInt8 := if 97≤c ∧ c≤122 then c-32 else c

def dictByte (c : UInt8) : Bool :=
  c == 32 || c == 9 || (48≤c && c≤57) || (97≤c && c≤122) || (65≤c && c≤90)

def normalizeTextKey (s : Bytes) (o : KeyOpts) : Bytes :=
  (s.filter fun c => (!o.dict || dictByte c) && (!o.ignoreNP || (32≤c && c≤126))).map
    fun c => if o.fold then upperByte c else c

def textKeyCompare (a b : Bytes) (o : KeyOpts) : ℤ :=
  if o.dict || o.ignoreNP || o.fold then
    compareBytes (normalizeTextKey a o) (normalizeTextKey b o)
  else compareBytes a b

def months : List Bytes :=
  [ascii "JAN",ascii "FEB",ascii "MAR",ascii "APR",ascii "MAY",ascii "JUN",ascii "JUL",
    ascii "AUG",ascii "SEP",ascii "OCT",ascii "NOV",ascii "DEC"]

/-- The first `n` bytes of `strings.ToUpper(s)`, cut before one that is not ASCII. Outside ASCII,
two letters have an ASCII upper case: the dotless i and the long s. -/
def upperPrefix : ℕ→Bytes→Bytes
  | 0,_ | _,[] => []
  | n+1,196::177::s => 73::upperPrefix n s
  | n+1,197::191::s => 83::upperPrefix n s
  | n+1,c::s => if c<128 then upperByte c::upperPrefix n s else []

def monthIndex (s : Bytes) : ℤ :=
  let i := months.idxOf (upperPrefix 3 (trimBlanks s))
  if i<12 then i+1 else 0

def monthOrder (a b : Bytes) : ℤ := cmpInt (monthIndex a) (monthIndex b)

def monthCompare (a b : Bytes) : ℤ :=
  let d := monthOrder a b
  if d≠0 then d else compareBytes (trimBlanks a) (trimBlanks b)

/-- `filevercmp`; a turn of its loop reads at least one byte. -/
def filevercmp : ℕ→Bytes→Bytes→ℤ
  | _,[],[] => 0
  | _,_::_,[] => 1
  | _,[],_::_ => -1
  | 0,_::_,_::_ => 0
  | fuel+1,a::as,b::bs =>
    if isDigit a && isDigit b then
      let ra := trimZeros ((a::as).takeWhile isDigit)
      let rb := trimZeros ((b::bs).takeWhile isDigit)
      if ra.length<rb.length then -1
      else if ra.length>rb.length then 1
      else
        let d := compareBytes ra rb
        if d≠0 then d
        else filevercmp fuel ((a::as).dropWhile isDigit) ((b::bs).dropWhile isDigit)
    else if a≠b then (if a<b then -1 else 1)
    else filevercmp fuel as bs

def versionCompare (a b : Bytes) : ℤ :=
  filevercmp a.length (trimBlanks a) (trimBlanks b)

/-- `sorter`, in the C locale. -/
structure Sorter where
  keys : List KeySpec := []
  tab : Option UInt8 := none
  reverse : Bool := false
  stable : Bool := false
  unique : Bool := false
  deriving DecidableEq,Repr

inductive KeyKind where
  | random | generalNum | numeric | human | month | version | text
  deriving DecidableEq,Repr

/-- The kind a key's options select, in the order of the switch of `compareKeys`. -/
def KeyOpts.kind (o : KeyOpts) : KeyKind :=
  if o.random then .random
  else if o.generalNum then .generalNum
  else if o.numeric then .numeric
  else if o.human then .human
  else if o.month then .month
  else if o.version then .version
  else .text

section
-- `generalNumCompare` compares floating-point numbers and is left open
variable (generalNumCompare : Bytes→Bytes→ℤ)

def keyCompare (o : KeyOpts) (a b : Bytes) : ℤ :=
  match o.kind with
  | .random => 0
  | .generalNum => generalNumCompare a b
  | .numeric => numCompare a b
  | .human => humanCompare a b
  | .month => monthCompare a b
  | .version => versionCompare a b
  | .text => textKeyCompare a b o

def compareKeys (tab : Option UInt8) (a b : Bytes) : List KeySpec→Option ℤ
  | [] => some 0
  | k::ks => do
    let ka ← extractKey a k tab
    let kb ← extractKey b k tab
    let d := keyCompare generalNumCompare k.opts ka kb
    if d≠0 then pure (if k.opts.reverse then -d else d) else compareKeys tab a b ks

def Sorter.compare (s : Sorter) (a b : Bytes) : Option ℤ := do
  let d ← compareKeys generalNumCompare s.tab a b s.keys
  if s.keys≠[] ∧ (d≠0 ∨ s.stable ∨ s.unique) then pure d
  else pure (if s.reverse then -compareBytes a b else compareBytes a b)

end

end Coreutils.SortKeys
