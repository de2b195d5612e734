import Coreutils.GoText

/-!
# Reading patches

`pkg/patch/types.go` and `pkg/patch/parse.go`. A parser takes the lines from its position on and
returns those after what it read. A loop has the number of lines left as fuel; each turn reads at
least one. The header expressions are matched from left to right: no part of them can give back what
it took.
-/

namespace Coreutils.PatchParse
open GoText

inductive Format where
  | formatUnified | formatContext | formatNormal
  deriving DecidableEq,Repr

inductive LineKind where
  | lineContext | lineDelete | lineAdd
  deriving DecidableEq,Repr

structure HunkLine where
  kind : LineKind
  text : Bytes
  noEOL : Bool := false
  deriving DecidableEq,Repr

structure Hunk where
  oldStart : ℤ
  oldCount : ℤ
  newStart : ℤ
  newCount : ℤ
  lines : List HunkLine
  deriving DecidableEq,Repr

/-- `FilePatch`, without the name of a preceding `Index:` line. -/
structure FilePatch where
  oldName : Bytes := []
  newName : Bytes := []
  format : Format := .formatUnified
  hunks : List Hunk := []
  renameFrom : Bytes := []
  renameTo : Bytes := []
  unsupported : Bytes := []
  deriving DecidableEq,Repr

/-- The errors of `Parse`, with what their texts quote. -/
inductive ParseError where
  | noHunks
  | malformedUnified (text : Bytes)
  | endInsideHunk (newName : Bytes)
  | unexpectedLine (text : Bytes)
  | endAfterSeparator
  | expectedOldRange (text : Bytes)
  | endBeforeNewRange
  | expectedNewRange (text : Bytes)
  | noNormalHunks
  | expectedSeparator (text : Bytes)
  | ranOut (want : ℤ) (mark : Bytes)
  | expectedMarked (mark text : Bytes)
  deriving DecidableEq,Repr

structure RawLine where
  text : Bytes
  noEOL : Bool := false
  deriving DecidableEq,Repr

def trimCR (s : Bytes) : Bytes := if s.getLast?=some carriageReturn then s.dropLast else s

def rawLines : List Bytes→Bool→List RawLine
  | [],_ => []
  | [p],noEOL => [⟨trimCR p,noEOL⟩]
  | p::p'::ps,noEOL => ⟨trimCR p,false⟩::rawLines (p'::ps) noEOL

def splitRawLines (data : Bytes) : List RawLine :=
  rawLines (splitFileLines data).1 (splitFileLines data).2

/-- The rest of a string after a literal. -/
def lit? : Bytes→Bytes→Option Bytes
  | [],s => some s
  | _::_,[] => none
  | a::p,b::s => if a=b then lit? p s else none

def startsWith (p s : Bytes) : Bool := (lit? p s).isSome

/-- `(\d+)(?:,(\d+))?`: the two numbers, the second empty when it is absent, and the rest. -/
def range? (s : Bytes) : Option ((Bytes×Bytes)×Bytes) :=
  match number? s with
  | none => none
  | some (first,rest) =>
    match rest with
    | 44::rest' =>
      match number? rest' with
      | some (second,rest'') => some ((first,second),rest'')
      | none => some ((first,[]),rest)
    | _ => some ((first,[]),rest)

def unifiedHunk? (s : Bytes) : Option ((Bytes×Bytes)×(Bytes×Bytes)) := do
  let s ← lit? (ascii "@@ -") s
  let (old,s) ← range? s
  let s ← lit? (ascii " +") s
  let (new,s) ← range? s
  let _ ← lit? (ascii " @@") s
  pure (old,new)

def contextSep (s : Bytes) : Bool :=
  9≤(s.takeWhile (· == 42)).length && (s.dropWhile (· == 42)).all isReSpace

/-- `contextOldRe` and `contextNewRe`: a range between two marks. -/
def contextRange? (before after s : Bytes) : Option (Bytes×Bytes) := do
  let s ← lit? before s
  let (r,s) ← range? s
  let s ← lit? after s
  if s.all isReSpace then pure r else none

def contextOld? : Bytes→Option (Bytes×Bytes) := contextRange? (ascii "*** ") (ascii " ****")

def contextNew? : Bytes→Option (Bytes×Bytes) := contextRange? (ascii "--- ") (ascii " ----")

/-- `[acd]` of `normalHunkRe`. -/
inductive NormalOp where
  | a | c | d
  deriving DecidableEq,Repr

def normalOp? : Bytes→Option (NormalOp×Bytes)
  | 97::s => some (.a,s)
  | 99::s => some (.c,s)
  | 100::s => some (.d,s)
  | _ => none

def normalHunk? (s : Bytes) : Option ((Bytes×Bytes)×NormalOp×(Bytes×Bytes)) := do
  let (old,s) ← range? s
  let (op,s) ← normalOp? s
  let (new,s) ← range? s
  if s=[] then pure (old,op,new) else none

def extractName (rest : Bytes) : Bytes :=
  if 9∈rest then rest.takeWhile (· != 9)
  else (rest.reverse.dropWhile (fun c => c == 32 || c == 9)).reverse

def unifiedRangeVal (num : ℤ) (hasCount : Bool) (count : ℤ) : ℤ×ℤ :=
  if !hasCount then (num-1,1)
  else if count=0 then (num,0)
  else (num-1,count)

def unifiedSide (r : Bytes×Bytes) : ℤ×ℤ :=
  unifiedRangeVal (atoi r.1) (r.2 != []) (atoiDefault r.2)

/-- A no-newline marker sets the flag of the line before it. -/
def flagLast : List HunkLine→List HunkLine
  | [] => []
  | [l] => [{ l with noEOL := true }]
  | l::l'::ls => l::flagLast (l'::ls)

/-- The loop that reads a unified hunk's body until both counts are met. -/
def unifiedBody (newName : Bytes) (oldCount newCount : ℤ) :
    List RawLine→ℤ→ℤ→List HunkLine→Except ParseError (List HunkLine×List RawLine)
  | [],oldSeen,newSeen,hl =>
    if oldSeen<oldCount ∨ newSeen<newCount then .error (.endInsideHunk newName)
    else .ok (hl,[])
  | l::rest,oldSeen,newSeen,hl =>
    if oldSeen<oldCount ∨ newSeen<newCount then
      match l.text with
      | [] =>
        unifiedBody newName oldCount newCount rest (oldSeen+1) (newSeen+1)
          (hl++[⟨.lineContext,[],l.noEOL⟩])
      | c::body =>
        if c=92 then unifiedBody newName oldCount newCount rest oldSeen newSeen (flagLast hl)
        else if c=32 then
          unifiedBody newName oldCount newCount rest (oldSeen+1) (newSeen+1)
            (hl++[⟨.lineContext,body,l.noEOL⟩])
        else if c=45 then
          unifiedBody newName oldCount newCount rest (oldSeen+1) newSeen
            (hl++[⟨.lineDelete,body,l.noEOL⟩])
        else if c=43 then
          unifiedBody newName oldCount newCount rest oldSeen (newSeen+1)
            (hl++[⟨.lineAdd,body,l.noEOL⟩])
        else .error (.unexpectedLine l.text)
    else .ok (hl,l::rest)

def trailingMarkers : List RawLine→List HunkLine→List HunkLine×List RawLine
  | [],hl => (hl,[])
  | l::rest,hl =>
    if l.text.head?=some 92 then trailingMarkers rest (flagLast hl) else (hl,l::rest)

def unifiedHunks (newName : Bytes) : ℕ→List RawLine→Except ParseError (List Hunk×List RawLine)
  | 0,lines => .ok ([],lines)
  | _+1,[] => .ok ([],[])
  | fuel+1,l::rest =>
    if startsWith (ascii "@@ ") l.text then
      match unifiedHunk? l.text with
      | none => .error (.malformedUnified l.text)
      | some (old,new) => do
        let (oldStart,oldCount) := unifiedSide old
        let (newStart,newCount) := unifiedSide new
        let (hl,rest) ← unifiedBody newName oldCount newCount rest 0 0 []
        let (hl,rest) := trailingMarkers rest hl
        let (hunks,rest) ← unifiedHunks newName fuel rest
        pure (⟨oldStart,oldCount,newStart,newCount,hl⟩::hunks,rest)
    else .ok ([],l::rest)

/-- `parseUnifiedFile`, from its two header lines and the lines after them. -/
def parseUnifiedFile (old new : Bytes) (rest : List RawLine) :
    Except ParseError (FilePatch×List RawLine) := do
  let oldName := extractName (old.drop 4)
  let newName := extractName (new.drop 4)
  let (hunks,rest) ← unifiedHunks newName rest.length rest
  pure ({ oldName := oldName,newName := newName,format := .formatUnified,hunks := hunks },rest)

inductive Mark where
  | keep | delete | insert | change
  deriving DecidableEq,Repr

def oldBlockMark : Bytes→Option (Mark×Bytes)
  | 32::32::s => some (.keep,s)
  | 45::32::s => some (.delete,s)
  | 33::32::s => some (.change,s)
  | _ => none

def newBlockMark : Bytes→Option (Mark×Bytes)
  | 32::32::s => some (.keep,s)
  | 43::32::s => some (.insert,s)
  | 33::32::s => some (.change,s)
  | _ => none

structure MarkedLine where
  mark : Mark
  text : Bytes
  noEOL : Bool
  deriving DecidableEq,Repr

def flagLastMarked : List MarkedLine→List MarkedLine
  | [] => []
  | [l] => [{ l with noEOL := true }]
  | l::l'::ls => l::flagLastMarked (l'::ls)

def consumeMarkedBlock (marks : Bytes→Option (Mark×Bytes)) :
    List RawLine→List MarkedLine→List MarkedLine×List RawLine
  | [],out => (out,[])
  | l::rest,out =>
    if l.text.head?=some 92 then consumeMarkedBlock marks rest (flagLastMarked out)
    else
      match marks l.text with
      | none => (out,l::rest)
      | some (mark,text) => consumeMarkedBlock marks rest (out++[⟨mark,text,l.noEOL⟩])

/-- `resolveContextStart`, with `contextRangeVal`. -/
def resolveContextStart (hasSecond : Bool) (first second actualCount : ℤ) : ℤ×ℤ :=
  if hasSecond then (first-1,wrap64 (second-first+1))
  else (first-actualCount,actualCount)

/-- `zipContextBlocks`; a turn of its loop reads at least one line of the two blocks. -/
def zipContextBlocks : ℕ→List MarkedLine→List MarkedLine→List HunkLine
  | 0,_,_ => []
  | fuel+1,old,new =>
    if old=[] ∧ new=[] then []
    else
      match old with
      | ⟨.keep,text,noEOL⟩::old' =>
        ⟨.lineContext,text,noEOL⟩ ::
          zipContextBlocks fuel old' (if new.head?.any (·.mark == .keep) then new.tail else new)
      | _ =>
        let dels := old.takeWhile (·.mark != .keep)
        let old' := old.dropWhile (·.mark != .keep)
        let adds := new.takeWhile (·.mark != .keep)
        let new' := new.dropWhile (·.mark != .keep)
        let changed := dels.map (fun l => ⟨.lineDelete,l.text,l.noEOL⟩) ++
          adds.map (fun l => ⟨.lineAdd,l.text,l.noEOL⟩)
        match old',new' with
        | [],l::new'' =>
          changed++⟨.lineContext,l.text,l.noEOL⟩::zipContextBlocks fuel [] new''
        | _,_ => changed++zipContextBlocks fuel old' new'

/-- One hunk of a context section, from the line after its separator on. -/
def contextHunkAt : List RawLine→Except ParseError (Hunk×List RawLine)
  | [] => .error .endAfterSeparator
  | l::rest =>
    match contextOld? l.text with
    | none => .error (.expectedOldRange l.text)
    | some old =>
      let (oldBlock,rest) :=
        if rest.head?.any (fun l => (contextNew? l.text).isSome) then ([],rest)
        else consumeMarkedBlock oldBlockMark rest []
      match rest with
      | [] => .error .endBeforeNewRange
      | m::rest =>
        match contextNew? m.text with
        | none => .error (.expectedNewRange m.text)
        | some new =>
          let (newBlock,rest) :=
            if rest.head?.any (fun l => contextSep l.text) then ([],rest)
            else consumeMarkedBlock newBlockMark rest []
          let (oldStart,oldCount) :=
            resolveContextStart (old.2 != []) (atoi old.1) (atoiDefault old.2) oldBlock.length
          let (newStart,newCount) :=
            resolveContextStart (new.2 != []) (atoi new.1) (atoiDefault new.2) newBlock.length
          .ok (⟨oldStart,oldCount,newStart,newCount,
            zipContextBlocks (oldBlock.length+newBlock.length) oldBlock newBlock⟩,rest)

def contextHunks : ℕ→List RawLine→Except ParseError (List Hunk×List RawLine)
  | 0,lines => .ok ([],lines)
  | _+1,[] => .ok ([],[])
  | fuel+1,l::rest =>
    if contextSep l.text then do
      let (hunk,rest) ← contextHunkAt rest
      let (hunks,rest) ← contextHunks fuel rest
      pure (hunk::hunks,rest)
    else .ok ([],l::rest)

/-- `parseContextFile`, from its two header lines and the lines after them. -/
def parseContextFile (old new : Bytes) (rest : List RawLine) :
    Except ParseError (FilePatch×List RawLine) := do
  let (hunks,rest) ← contextHunks rest.length rest
  pure ({ oldName := extractName (old.drop 4),newName := extractName (new.drop 4),
          format := .formatContext,hunks := hunks },rest)

/-- `consumeFixedMarked`; the lines become hunk lines of the given kind. -/
def consumeFixedMarked (mark : Bytes) (kind : LineKind) (want : ℤ) :
    List RawLine→List HunkLine→Except ParseError (List HunkLine×List RawLine)
  | [],out => if (out.length : ℤ)<want then .error (.ranOut want mark) else .ok (out,[])
  | l::rest,out =>
    if (out.length : ℤ)<want then
      if l.text.head?=some 92 then consumeFixedMarked mark kind want rest (flagLast out)
      else
        match lit? mark l.text with
        | none => .error (.expectedMarked mark l.text)
        | some text => consumeFixedMarked mark kind want rest (out++[⟨kind,text,l.noEOL⟩])
    else .ok (out,l::rest)

def normalCount (r : Bytes×Bytes) : ℤ :=
  if r.2=[] then 1 else wrap64 (atoiDefault r.2-atoi r.1+1)

/-- One hunk of a normal section, from the line after its command on. -/
def normalHunkAt (old : Bytes×Bytes) (op : NormalOp) (new : Bytes×Bytes)
    (rest : List RawLine) : Except ParseError (Hunk×List RawLine) :=
  match op with
  | .a => do
    let (adds,rest) ← consumeFixedMarked (ascii "> ") .lineAdd (normalCount new) rest []
    pure (⟨atoi old.1,0,atoi new.1-1,normalCount new,adds⟩,rest)
  | .d => do
    let (dels,rest) ← consumeFixedMarked (ascii "< ") .lineDelete (normalCount old) rest []
    pure (⟨atoi old.1-1,normalCount old,atoi new.1,0,dels⟩,rest)
  | .c => do
    let (dels,rest) ← consumeFixedMarked (ascii "< ") .lineDelete (normalCount old) rest []
    match rest with
    | [] => .error (.expectedSeparator (ascii "<end of input>"))
    | l::rest =>
      if l.text=ascii "---" then do
        let (adds,rest) ← consumeFixedMarked (ascii "> ") .lineAdd (normalCount new) rest []
        pure (⟨atoi old.1-1,normalCount old,atoi new.1-1,normalCount new,dels++adds⟩,rest)
      else .error (.expectedSeparator l.text)

def normalHunks : ℕ→List RawLine→Except ParseError (List Hunk×List RawLine)
  | 0,lines => .ok ([],lines)
  | _+1,[] => .ok ([],[])
  | fuel+1,l::rest =>
    match normalHunk? l.text with
    | none => .ok ([],l::rest)
    | some (old,op,new) => do
      let (hunk,rest) ← normalHunkAt old op new rest
      let (hunks,rest) ← normalHunks fuel rest
      pure (hunk::hunks,rest)

def parseNormalFile (lines : List RawLine) : Except ParseError (FilePatch×List RawLine) := do
  let (hunks,rest) ← normalHunks lines.length lines
  if hunks=[] then .error .noNormalHunks
  else pure ({ format := .formatNormal,hunks := hunks },rest)

/-- `gitDiffRe`: the two names; the first takes as much as it can. -/
def gitNames? (s : Bytes) : Option (Bytes×Bytes) := do
  let s ← lit? (ascii "diff --git a/") s
  let i ← (List.range s.length).reverse.find? (fun i =>
    1 ≤ i && match lit? (ascii " b/") (s.drop i) with
      | some t => t != []
      | none => false)
  pure (s.take i,s.drop (i+3))

/-- The extended headers of a git section: the two rename names and whether it is binary. -/
structure GitHeaders where
  renameFrom : Bytes := []
  renameTo : Bytes := []
  binary : Bool := false
  deriving DecidableEq,Repr

def gitHeaders : List RawLine→GitHeaders→GitHeaders×List RawLine
  | [],h => (h,[])
  | l::rest,h =>
    if startsWith (ascii "--- ") l.text || startsWith (ascii "diff --git ") l.text then
      (h,l::rest)
    else
      match lit? (ascii "rename from ") l.text with
      | some name => gitHeaders rest { h with renameFrom := name }
      | none =>
        match lit? (ascii "rename to ") l.text with
        | some name => gitHeaders rest { h with renameTo := name }
        | none =>
          if startsWith (ascii "GIT binary patch") l.text ||
              startsWith (ascii "Binary files ") l.text then
            gitHeaders rest { h with binary := true }
          else gitHeaders rest h

/-- Why a git section without a textual hunk is not applied. -/
def gitReason (h : GitHeaders) : Bytes :=
  if h.binary then ascii "binary patch content is not supported by pure-Go coreutils"
  else if h.renameFrom≠[] ∨ h.renameTo≠[] then
    ascii "a git rename with no content hunk is not supported by pure-Go coreutils"
  else ascii "git diff section has no textual hunk to apply (metadata-only or unrecognized)"

/-- `parseGitWrappedFile`, from its first line and the lines after it. -/
def parseGitWrappedFile (line : Bytes) (rest : List RawLine) :
    Except ParseError (FilePatch×List RawLine) :=
  let (h,rest) := gitHeaders rest {}
  let bare : FilePatch×List RawLine :=
    ({ oldName := (gitNames? line).elim [] (fun p => ascii "a/" ++ p.1)
       newName := (gitNames? line).elim [] (fun p => ascii "b/" ++ p.2)
       renameFrom := h.renameFrom
       renameTo := h.renameTo
       unsupported := gitReason h },rest)
  match rest with
  | l::m::rest' =>
    if startsWith (ascii "--- ") l.text && startsWith (ascii "+++ ") m.text then do
      let (fp,rest'') ← parseUnifiedFile l.text m.text rest'
      pure ({ fp with renameFrom := h.renameFrom,renameTo := h.renameTo },rest'')
    else .ok bare
  | _ => .ok bare

def isPatchControlLine (s : Bytes) : Bool :=
  startsWith (ascii "Index:") s || startsWith (ascii "diff --git ") s ||
    startsWith (ascii "--- ") s || startsWith (ascii "*** ") s || (normalHunk? s).isSome

/-- `stripPatchIndentAt`: the indentation of a control line comes off every line that has it. -/
def stripPatchIndent : List RawLine→List RawLine
  | [] => []
  | l::rest =>
    let indent := l.text.takeWhile (fun c => c == 32 || c == 9)
    let trimmed := l.text.drop indent.length
    if indent=[] || !isPatchControlLine trimmed then l::rest
    else (l::rest).map (fun m => { m with text := (lit? indent m.text).getD m.text })

/-- The loop of `Parse`. After an indentation is stripped the line is read again without one. -/
def parseSections : ℕ→List RawLine→Except ParseError (List FilePatch)
  | 0,_ => .ok []
  | fuel+1,lines =>
    match stripPatchIndent lines with
    | [] => .ok []
    | l::rest =>
      if startsWith (ascii "Index:") l.text then parseSections fuel rest
      else if startsWith (ascii "diff --git ") l.text then do
        let (fp,rest) ← parseGitWrappedFile l.text rest
        let files ← parseSections fuel rest
        pure (fp::files)
      else if startsWith (ascii "--- ") l.text &&
          rest.head?.any (fun m => startsWith (ascii "+++ ") m.text) then do
        let (fp,rest) ← parseUnifiedFile l.text ((rest.head?.map (·.text)).getD []) rest.tail
        let files ← parseSections fuel rest
        pure (fp::files)
      else if startsWith (ascii "*** ") l.text &&
          rest.head?.any (fun m => startsWith (ascii "--- ") m.text) then do
        let (fp,rest) ← parseContextFile l.text ((rest.head?.map (·.text)).getD []) rest.tail
        let files ← parseSections fuel rest
        pure (fp::files)
      else if (normalHunk? l.text).isSome then do
        let (fp,rest) ← parseNormalFile (l::rest)
        let files ← parseSections fuel rest
        pure (fp::files)
      else parseSections fuel rest

def parse (data : Bytes) : Except ParseError (List FilePatch) := do
  let lines := splitRawLines data
  let files ← parseSections lines.length lines
  if files=[] then .error .noHunks else pure files

end Coreutils.PatchParse
