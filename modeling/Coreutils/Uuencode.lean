import Coreutils.Numerals
import Coreutils.Readers
import Coreutils.Sextets

/-!
# uuencode and uudecode

The encoder writes a header, a line for each buffer filled, and a terminator. The decoder looks for
headers line by line and decodes up to the terminator; it writes as it decodes, so an error may come
after part of the output.
-/

namespace Coreutils.Uuencode
open GoText Readers Sextets

def enc (b : UInt8) : UInt8 := (b &&& 0x3f)+0x20

def encodeGroup (v : UInt32) : Bytes :=
  [enc (v >>> 18).toUInt8,enc (v >>> 12).toUInt8,enc (v >>> 6).toUInt8,enc v.toUInt8]

/-- The groups of a data line of `encodeClassic`; a group that lacks bytes has zeros for them. -/
def encodeGroups : Bytes→Bytes
  | [] => []
  | [a] => encodeGroup (join3 a 0 0)
  | [a,b] => encodeGroup (join3 a b 0)
  | a::b::c::buf => encodeGroup (join3 a b c)++encodeGroups buf

def classicLine (buf : Bytes) : Bytes := enc (.ofNat buf.length)::encodeGroups buf

/-- The alphabet of `base64.StdEncoding`. -/
def alphabet : Bytes := ascii "ABCDEFGHIJKLMNOPQRSTUVWXYZabcdefghijklmnopqrstuvwxyz0123456789+/"

def padChar : UInt8 := 61

def encode64 (i : UInt8) : UInt8 := alphabet.getD i.toNat 0

def base64Line : Bytes→Bytes
  | [] => []
  | [a] => [encode64 (sextet (join3 a 0 0) 18),encode64 (sextet (join3 a 0 0) 12),padChar,padChar]
  | [a,b] =>
    [encode64 (sextet (join3 a b 0) 18),encode64 (sextet (join3 a b 0) 12),
      encode64 (sextet (join3 a b 0) 6),padChar]
  | a::b::c::buf =>
    [encode64 (sextet (join3 a b c) 18),encode64 (sextet (join3 a b c) 12),
      encode64 (sextet (join3 a b c) 6),encode64 (sextet (join3 a b c) 0)]++base64Line buf

/-- The loop of `encodeClassic` and `encodeBase64`: a line for each buffer, the last in part. -/
def encodeLoop (size : ℕ) (line : Bytes→Bytes) : ℕ→List Bytes→Option Bytes
  | 0,_ => none
  | fuel+1,reads =>
    let buf := (readFull reads size).1
    if buf=[] then some []
    else if buf.length<size then some (line buf++[newline])
    else (encodeLoop size line fuel (readFull reads size).2).map (line buf++[newline]++·)

def encodeClassic (input : Reader) : Option Bytes :=
  (encodeLoop 45 classicLine (input.content.length+1) input.reads).map (·++ascii " \nend\n")

def encodeBase64 (input : Reader) : Option Bytes :=
  (encodeLoop 57 base64Line (input.content.length+1) input.reads).map (·++ascii "====\n")

def perm (mode : UInt32) : UInt32 := mode &&& 0o777

def octal3 (n : ℕ) : Bytes := Numerals.spell (fun d => 48+.ofNat d) 8 3 n

def beginLine (base64Mode : Bool) (mode : UInt32) (remote : Bytes) : Bytes :=
  ascii (if base64Mode then "begin-base64 " else "begin ")++octal3 (perm mode).toNat++ascii " " ++
    remote

def uuencode (base64Mode : Bool) (mode : UInt32) (remote : Bytes) (input : Reader) : Option Bytes :=
  (if base64Mode then encodeBase64 input else encodeClassic input).map
    (beginLine base64Mode mode remote++[newline]++·)

def parseOctal (s : Bytes) : Option ℕ :=
  let v := s.foldl (fun v d => 8*v+(d.toNat-48)) 0
  if s≠[] ∧ s.all (fun c => 48≤c && c≤55) ∧ v<2^32 then some v else none

def parseWho : UInt32→Bytes→UInt32×Bytes
  | who,[] => (who,[])
  | who,c::s =>
    if c=117 then parseWho (who ||| 1) s
    else if c=103 then parseWho (who ||| 2) s
    else if c=111 then parseWho (who ||| 4) s
    else if c=97 then parseWho (who ||| 7) s
    else (who,c::s)

def isOperator (c : UInt8) : Bool := c=43 || c=45 || c=61

def parsePerm (bits : UInt32) : UInt32→Bytes→Option (UInt32×Bytes)
  | perm,[] => some (perm,[])
  | perm,c::s =>
    if isOperator c then some (perm,c::s)
    else if c=114 then parsePerm bits (perm ||| 4) s
    else if c=119 then parsePerm bits (perm ||| 2) s
    else if c=120 then parsePerm bits (perm ||| 1) s
    else if c=88 then parsePerm bits (if bits &&& 0o111≠0 then perm ||| 1 else perm) s
    else none

/-- The permissions after an operator, which may be those of a class. -/
def parseOperand (bits : UInt32) : Bytes→Option (UInt32×Bytes)
  | [] => some (0,[])
  | c::s =>
    if s.head?.all isOperator && (c=117 || c=103 || c=111) then
      if c=117 then some (bits >>> 6 &&& 7,s)
      else if c=103 then some (bits >>> 3 &&& 7,s)
      else some (bits &&& 7,s)
    else parsePerm bits 0 (c::s)

def modeBits (who perm : UInt32) : UInt32×UInt32 :=
  let u := if who &&& 1≠0 then (perm <<< 6,0o700) else ((0 : UInt32),(0 : UInt32))
  let g := if who &&& 2≠0 then (u.1 ||| perm <<< 3,u.2 ||| 0o070) else u
  if who &&& 4≠0 then (g.1 ||| perm,g.2 ||| 0o007) else g

/-- The operators of a clause. Each one is at least a byte. -/
def parseOperators (who : UInt32) : ℕ→UInt32→Bytes→Option UInt32
  | _,bits,[] => some bits
  | 0,_,_ => none
  | fuel+1,bits,op::s =>
    if !isOperator op then none
    else
      (parseOperand bits s).bind fun (perm,rest) =>
        let (set,clear) := modeBits who perm
        parseOperators who fuel
          (if op=43 then bits ||| set
          else if op=45 then bits &&& ~~~set
          else (bits &&& ~~~clear) ||| set) rest

def parseClause (bits : UInt32) (clause : Bytes) : Option UInt32 :=
  let (who,s) := parseWho 0 clause
  if s=[] then none else parseOperators (if who=0 then 7 else who) s.length bits s

def parseHeaderMode (s : Bytes) : Option UInt32 :=
  match (parseOctal s).filter (·≤0o7777) with
  | some n => some (perm (UInt32.ofNat n))
  | none =>
    if s=[] then none
    else ((s.splitOn 44).foldlM parseClause 0).map perm

structure Header where
  name : Bytes
  mode : UInt32
  base64 : Bool
  deriving DecidableEq

/-- The mode and the name of a header. -/
def parseFields (base64 : Bool) (s : Bytes) : Except Bytes (Option Header) :=
  let name := (s.dropWhile (·≠32)).drop 1
  if name=[] then .error (ascii "malformed 'begin' line")
  else
    match parseHeaderMode (s.takeWhile (·≠32)) with
    | none => .error (ascii "malformed 'begin' line")
    | some mode => .ok (some ⟨name,mode,base64⟩)

/-- `parseHeader`; nothing for a line that is no header. -/
def parseHeader (line : Bytes) : Except Bytes (Option Header) :=
  if (ascii "begin-base64 ").isPrefixOf line then parseFields true (line.drop 13)
  else if (ascii "begin ").isPrefixOf line then parseFields false (line.drop 6)
  else if (ascii "begin-").isPrefixOf line then .error (ascii "unsupported begin header")
  else .ok none

/-- What a decoder writes, and the lines it leaves or the error it ends with. -/
abbrev Decoding (α : Type) := Bytes×Except Bytes α

def trimLine (line : Bytes) : Bytes :=
  let l := if line.getLast?=some newline then line.dropLast else line
  if l.getLast?=some carriageReturn then l.dropLast else l

/-- The lines that `readLine` returns one after the other. The last comes with the end of the file;
after it there are only empty ones. -/
def inputLines (input : Reader) : List Bytes := (readStrings newline [] input.reads).map trimLine

def dec (b : UInt8) : UInt8 := (b-0x20) &&& 0x3f

def hex2 (c : UInt8) : Bytes :=
  [(Nat.digitChar (c.toNat/16)).toUInt8,(Nat.digitChar (c.toNat%16)).toUInt8]

def invalidCharacter (c : UInt8) : Bytes := ascii "invalid encoded character 0x" ++ hex2 c

def decodeGroups : ℕ→Bytes→Except Bytes Bytes
  | 0,_ => .ok []
  | n+1,p::q::r::s::chars =>
    match [p,q,r,s].find? (fun c => c<0x20 || 0x60<c) with
    | some c => .error (invalidCharacter c)
    | none =>
      let v := join4 (dec p) (dec q) (dec r) (dec s)
      (decodeGroups n chars).map ([(v >>> 16).toUInt8,(v >>> 8).toUInt8,v.toUInt8]++·)
  -- the line was found to be long enough
  | _+1,_ => .error (ascii "short data line")

def decodeData (n : ℕ) (chars : Bytes) : Except Bytes Bytes :=
  if 45<n then .error (ascii "invalid data line length " ++ itoa n)
  else if chars.length<(n+2)/3*4 then .error (ascii "short data line")
  else (decodeGroups ((n+2)/3) chars).map (List.take n)

def decodeClassic : List Bytes→Decoding (List Bytes)
  | [] => ([],.error (ascii "short file"))
  | []::rest => ([],.error (ascii (if rest=[] then "short file" else "malformed empty data line")))
  | (c::chars)::rest =>
    if c::chars=ascii "end" then
      ([],.error (ascii "malformed data: missing zero-length line before 'end'"))
    else if dec c=0 then
      if rest.headD []=ascii "end" then ([],.ok rest.tail)
      else ([],.error (ascii "malformed data: expected 'end'"))
    else
      match decodeData (dec c).toNat chars with
      | .error e => ([],.error e)
      | .ok decoded =>
        if rest=[] then (decoded,.error (ascii "short file"))
        else (decoded++(decodeClassic rest).1,(decodeClassic rest).2)

def base64Char (c : UInt8) : Bool :=
  65≤c && c≤90 || 97≤c && c≤122 || 48≤c && c≤57 || c=43 || c=47 || c=padChar

def decode64 (c : UInt8) : Option UInt8 :=
  if c∈alphabet then some (.ofNat (alphabet.idxOf c)) else none

/-- `base64.StdEncoding.Decode` of four characters, none of them a line end. -/
def decodeQuantum (p q r s : UInt8) : Option Bytes :=
  match decode64 p,decode64 q,decode64 r,decode64 s with
  | some p,some q,some r,some s =>
    let v := join4 p q r s
    some [(v >>> 16).toUInt8,(v >>> 8).toUInt8,v.toUInt8]
  | some p,some q,some r,none =>
    let v := join4 p q r 0
    if s=padChar then some [(v >>> 16).toUInt8,(v >>> 8).toUInt8] else none
  | some p,some q,none,_ =>
    let v := join4 p q 0 0
    if r=padChar ∧ s=padChar then some [(v >>> 16).toUInt8] else none
  | _,_,_,_ => none

/-- The characters of an unfinished quantum, and whether the last one was padded. -/
structure Quantum where
  chars : Bytes := []
  padded : Bool := false
  deriving DecidableEq

def malformed : Bytes := ascii "malformed base64 data"

def decodeChar (st : Quantum) (c : UInt8) : Decoding Quantum :=
  if !base64Char c then ([],.ok st)
  else if st.padded then ([],.error malformed)
  else
    match st.chars with
    | [p,q,r] =>
      match decodeQuantum p q r c with
      | none => ([],.error malformed)
      | some decoded => (decoded,.ok ⟨[],r=padChar || c=padChar⟩)
    | chars => ([],.ok { st with chars := chars++[c] })

def decodeLine : Quantum→Bytes→Decoding Quantum
  | st,[] => ([],.ok st)
  | st,c::line =>
    match (decodeChar st c).2 with
    | .error e => ((decodeChar st c).1,.error e)
    | .ok st' => ((decodeChar st c).1++(decodeLine st' line).1,(decodeLine st' line).2)

def decodeBase64 : Quantum→List Bytes→Decoding (List Bytes)
  | _,[] => ([],.error (ascii "short base64 data"))
  | st,line::rest =>
    if line=ascii "====" then
      if st.chars≠[] then ([],.error malformed) else ([],.ok rest)
    else
      match (decodeLine st line).2 with
      | .error e => ((decodeLine st line).1,.error e)
      | .ok st' =>
        if rest=[] then ((decodeLine st line).1,.error (ascii "short base64 data"))
        else ((decodeLine st line).1++(decodeBase64 st' rest).1,(decodeBase64 st' rest).2)

/-- Where the content of a part goes. -/
inductive Target where
  | stdout
  | file (name : Bytes)
  deriving DecidableEq

/-- A part that was written. A file gets the mode of the header. -/
structure Part where
  header : Header
  target : Target
  content : Bytes
  deriving DecidableEq

def target (override name : Bytes) : Target :=
  if override≠[] then
    if override=ascii "/dev/stdout" then .stdout else .file override
  else if name=ascii "-" ∨ name=ascii "/dev/stdout" then .stdout
  else .file name

/-- `decodePart`, with files that can be written. A file gets its content once all of it is decoded,
the standard output as it is decoded. -/
def decodePart (override : Bytes) (h : Header) (lines : List Bytes) :
    List Part×Except Bytes (List Bytes) :=
  let (content,result) := if h.base64 then decodeBase64 {} lines else decodeClassic lines
  match target override h.name,result with
  | t,.ok rest => ([⟨h,t,content⟩],.ok rest)
  | .stdout,.error e => ([⟨h,.stdout,content⟩],.error (ascii "uudecode: " ++ e++ascii "\n"))
  | .file name,.error e => ([],.error (ascii "uudecode: " ++ name++ascii ": " ++ e++ascii "\n"))

/-- The loop of `decodeInput`: the parts, and whether all went well. A round reads a line. -/
def decodeParts (source override : Bytes) : ℕ→Bool→List Bytes→List Part×Except Bytes Unit
  | _,found,[] =>
    ([],if found then .ok ()
      else .error (ascii "uudecode: " ++ source++ascii ": no 'begin' line\n"))
  | 0,_,_ => ([],.error [])
  | fuel+1,found,line::rest =>
    match parseHeader line with
    | .error e => ([],.error (ascii "uudecode: " ++ e++ascii "\n"))
    | .ok none => decodeParts source override fuel found rest
    | .ok (some h) =>
      match decodePart override h rest with
      | (parts,.error e) => (parts,.error e)
      | (parts,.ok rest) =>
        (parts++(decodeParts source override fuel true rest).1,
          (decodeParts source override fuel true rest).2)

def decodeInput (source : Bytes) (input : Reader) (override : Bytes) :
    List Part×Except Bytes Unit :=
  decodeParts source override (inputLines input).length false (inputLines input)

end Coreutils.Uuencode
