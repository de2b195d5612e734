import Coreutils.PatchParse

/-!
# The input of xargs

`readItems` and its three splitters. A list of strings is written in one of the three forms and read
back. The quoted form gives back every list; the forms with a terminator exactly those without an
empty string, because `splitOn` drops empty parts.
-/

namespace Coreutils.XargsInput
open List GoText PatchParse

structure InputItem where
  value : Bytes
  line : ℕ
  deriving DecidableEq,Repr

structure Options where
  null : Bool := false
  maxLines : ℤ := 0
  replaceSet : Bool := false
  eof : Bytes := []
  delim : Bytes := []
  deriving DecidableEq,Repr

def tab : UInt8 := 9

def space : UInt8 := 32

def doubleQuote : UInt8 := 34

def singleQuote : UInt8 := 39

def splitOn (s : Bytes) (delim : ℕ) : List Bytes :=
  (splitSeq (encodeRune delim) 0 [] s).filter (·≠[])

def plainItems (values : List Bytes) : List InputItem :=
  values.mapIdx fun i value => { value,line := i+1 }

def unescapeDelim : Bytes→ℕ
  | [] => 10
  | c::s =>
    if c=backslash ∧ s.head?=some 110 then 10
    else if c=backslash ∧ s.head?=some 116 then 9
    else if c=backslash ∧ s.head?=some 114 then 13
    else if c=backslash ∧ s.head?=some 48 then 0
    else if c=backslash ∧ s.head?=some backslash then 92
    else (decodeRune (c::s)).1

structure PhysicalLine where
  inSingle : Bool := false
  inDouble : Bool := false
  escaped : Bool := false
  nonBlankSeen : Bool := false
  lastIsBlank : Bool := false
  lastIsEscaped : Bool := false
  lastIsQuoted : Bool := false

def PhysicalLine.next (p : PhysicalLine) (c : UInt8) : PhysicalLine :=
  if p.escaped then
    { p with
             escaped := false,nonBlankSeen := true,lastIsBlank := isBlank c
             lastIsEscaped := true,lastIsQuoted := p.inSingle || p.inDouble }
  else if p.inSingle then
    if c=singleQuote then { p with inSingle := false }
    else { p with
                  nonBlankSeen := true,lastIsBlank := isBlank c
                  lastIsEscaped := false,lastIsQuoted := true }
  else if p.inDouble then
    if c=doubleQuote then { p with inDouble := false }
    else { p with
                  nonBlankSeen := true,lastIsBlank := isBlank c
                  lastIsEscaped := false,lastIsQuoted := true }
  else if c=backslash then { p with escaped := true }
  else if c=singleQuote then { p with nonBlankSeen := true,inSingle := true }
  else if c=doubleQuote then { p with nonBlankSeen := true,inDouble := true }
  else { p with
                nonBlankSeen := p.nonBlankSeen || !isBlank c,lastIsBlank := isBlank c
                lastIsEscaped := false,lastIsQuoted := false }

/-- `analyzePhysicalLine`: whether the line is empty, and whether it is continued. -/
def analyzePhysicalLine (line : Bytes) : Bool×Bool :=
  let p := (trimCR line).foldl PhysicalLine.next {}
  (!p.nonBlankSeen,p.lastIsBlank && !p.lastIsEscaped && !p.lastIsQuoted)

def logicalLinesFrom : ℕ→Bool→List Bytes→List ℕ
  | _,_,[] => []
  | logical,continued,part::parts =>
    let (isEmpty,ends) := analyzePhysicalLine part
    if isEmpty then
      max logical 1::logicalLinesFrom (max logical 1) continued parts
    else
      let logical := if continued then logical else logical+1
      logical::logicalLinesFrom logical ends parts

/-- `computeLogicalLines`: the logical lines of the physical lines. -/
def computeLogicalLines (s : Bytes) : List ℕ :=
  let parts := s.splitOn newline
  logicalLinesFrom 0 false
    (if 1<parts.length ∧ parts.getLast?=some [] then parts.dropLast else parts)

structure Words where
  items : List InputItem := []
  cur : Bytes := []
  inItem : Bool := false
  line : ℕ := 1
  itemLine : ℕ := 1

def Words.flush (lineOf : ℕ→ℕ) (w : Words) : Words :=
  if w.inItem then
    { w with
             items := w.items++[{ value := w.cur,line := lineOf w.itemLine }],cur := []
             inItem := false }
  else w

def Words.push (w : Words) (c : UInt8) : Words := { w with cur := w.cur++[c],inItem := true }

/-- Blanks that separate items, other than a newline. -/
def separates (c : UInt8) : Bool :=
  c == space || c == tab || c == carriageReturn || c == 11 || c == 12

def unmatchedQuote (q : UInt8) : Bytes :=
  if q=singleQuote then ascii "unmatched single quote" else ascii "unmatched double quote"

/-- The loop of `splitQuoted`, with the quote that is open. -/
def splitLoop (lineOf : ℕ→ℕ) : Option UInt8→Bytes→Words→Except Bytes Words
  | none,[],w => .ok w
  | some q,[],_ => .error (unmatchedQuote q)
  | some q,c::s,w =>
    if c=q then splitLoop lineOf none s w
    else splitLoop lineOf (some q) s { w with cur := w.cur++[c] }
  | none,c::s,w =>
    if separates c then splitLoop lineOf none s (w.flush lineOf)
    else if c=newline then
      let w := w.flush lineOf
      splitLoop lineOf none s { w with line := w.line+1,itemLine := w.line+1 }
    else if c=backslash then
      match s with
      | [] => .error (ascii "unmatched backslash")
      | d::s => splitLoop lineOf none s (w.push d)
    else if c=singleQuote ∨ c=doubleQuote then
      splitLoop lineOf (some c) s { w with inItem := true }
    else splitLoop lineOf none s (w.push c)

def splitQuoted (s : Bytes) (useContinuation : Bool) : Except Bytes (List InputItem) :=
  let lineOf (n : ℕ) := if useContinuation then (computeLogicalLines s)[n-1]?.getD n else n
  (splitLoop lineOf none s {}).map fun w => (w.flush lineOf).items

/-- The loop of `unquoteReplacementLine`, with the quote that is open. -/
def unquoteFrom : Option UInt8→Bytes→Except Bytes Bytes
  | none,[] => .ok []
  | some q,[] => .error (unmatchedQuote q)
  | some q,c::s =>
    if c=q then unquoteFrom none s else (unquoteFrom (some q) s).map (c::·)
  | none,c::s =>
    if c=backslash then
      match s with
      | [] => .error (ascii "unmatched backslash")
      | d::s => (unquoteFrom none s).map (d::·)
    else if c=singleQuote ∨ c=doubleQuote then unquoteFrom (some c) s
    else (unquoteFrom none s).map (c::·)

def unquoteReplacementLine (text : Bytes) : Except Bytes Bytes :=
  unquoteFrom none (text.dropWhile isBlank)

def replacementItems (data : Bytes) : Except Bytes (List InputItem) := do
  let lines := data.splitOn newline
  let lines := if lines.getLast?=some [] then lines.dropLast else lines
  return plainItems (← lines.mapM fun text => unquoteReplacementLine (trimCR text))

/-- `readItems`, on input that was read without an error. -/
def readItems (data : Bytes) (o : Options) : Except Bytes (List InputItem) := do
  let items ←
    if o.replaceSet then replacementItems data
    else if o.null then .ok (plainItems (splitOn data 0))
    else if o.delim≠[] then .ok (plainItems (splitOn data (unescapeDelim o.delim)))
    else splitQuoted data (0<o.maxLines)
  return if o.eof=[] then items else items.takeWhile (·.value≠o.eof)

def terminated (d : UInt8) (l : List Bytes) : Bytes := l.flatMap (·++[d])

theorem splitSeq_single {d : UInt8} {s : Bytes} (h : d∉s) (part rest : Bytes) :
    splitSeq [d] 0 part (s++d::rest)=(part++s)::splitSeq [d] 0 [] rest := by
  induction s generalizing part with
  | nil => simp [splitSeq]
  | cons c s ih =>
    obtain ⟨hc,hs⟩ : d≠c ∧ d∉s := by simpa using h
    have hne : ¬[d].isPrefixOf (c::(s++d::rest)) := by simp [hc]
    rw [cons_append,splitSeq,if_neg hne,ih hs]
    simp

variable {l : List Bytes}

theorem splitSeq_terminated {d : UInt8} (h : ∀s∈l,d∉s) :
    splitSeq [d] 0 [] (terminated d l)=l++[[]] := by
  induction l with
  | nil => rfl
  | cons s l ih =>
    have hrest : terminated d (s::l)=s++d::terminated d l := by simp [terminated]
    have htail : ∀t∈l,d∉t := fun t ht => h t (mem_cons_of_mem s ht)
    rw [hrest,splitSeq_single (h s mem_cons_self),ih htail]
    rfl

theorem splitOn_terminated {n : ℕ} (hn : n<128) (h : ∀s∈l,.ofNat n∉s) :
    splitOn (terminated (.ofNat n) l) n=l.filter (·≠[]) := by
  have henc : encodeRune n=[.ofNat n] := if_pos hn
  rw [splitOn,henc,splitSeq_terminated h]
  simp

theorem values_plainItems (l : List Bytes) : (plainItems l).map InputItem.value=l := by
  refine ext_getElem (by simp [plainItems]) fun i _ _ => ?_
  simp [plainItems]

def escaped (s : Bytes) : Bytes := s.flatMap fun c => [backslash,c]

def wordOf (s : Bytes) : Bytes := if s=[] then [singleQuote,singleQuote] else escaped s

def quoted (l : List Bytes) : Bytes := l.flatMap fun s => wordOf s++[newline]

section
variable (lineOf : ℕ→ℕ)

def Words.addLine (w : Words) (s : Bytes) : Words :=
  { items := w.items++[{ value := s,line := lineOf w.itemLine }]
    line := w.line+1,itemLine := w.line+1 }

theorem splitLoop_backslash (c : UInt8) (rest : Bytes) (w : Words) :
    splitLoop lineOf none (backslash::c::rest) w=splitLoop lineOf none rest (w.push c) := by
  rw [splitLoop,if_neg (by decide),if_neg (by decide),if_pos rfl]

theorem splitLoop_escaped (s rest : Bytes) (w : Words) : splitLoop lineOf none (escaped s++rest) w =
      splitLoop lineOf none rest (s.foldl Words.push w) := by
  induction s generalizing w with
  | nil => rfl
  | cons c s ih =>
    have hcons : escaped (c::s)++rest=backslash::c::(escaped s++rest) := by simp [escaped]
    rw [hcons,splitLoop_backslash,ih,foldl_cons]

theorem splitLoop_newline (rest : Bytes) (w : Words) : splitLoop lineOf none (newline::rest) w =
      splitLoop lineOf none rest { w.flush lineOf with
          line := (w.flush lineOf).line+1,itemLine := (w.flush lineOf).line+1 } := by
  cases rest <;> simp [splitLoop,separates,space,tab,carriageReturn,newline]

theorem foldl_push (s : Bytes) (w : Words) :
    s.foldl Words.push w={ w with cur := w.cur++s,inItem := w.inItem || s≠[] } := by
  induction s generalizing w with
  | nil => simp
  | cons c s ih => simp [ih,Words.push]

theorem splitLoop_line (s rest : Bytes) {w : Words} (hw : w.cur=[]) :
    splitLoop lineOf none (wordOf s++newline::rest) w =
      splitLoop lineOf none rest (w.addLine lineOf s) := by
  by_cases hs : s=[]
  · subst hs
    have hopen : splitLoop lineOf none (wordOf []++newline::rest) w =
        splitLoop lineOf none (newline::rest) { w with inItem := true } := by
      simp [wordOf,splitLoop,separates,singleQuote,space,tab,carriageReturn,newline,backslash]
    rw [hopen,splitLoop_newline]
    simp [Words.flush,Words.addLine,hw]
  · rw [wordOf,if_neg hs,splitLoop_escaped,foldl_push,splitLoop_newline]
    simp [Words.flush,Words.addLine,hw,hs]

/-- One word is added for each line of the quoted form. -/
theorem splitLoop_quoted (l : List Bytes) {w : Words} (hw : w.cur=[]) (hi : w.inItem=false) :
    ∃w',splitLoop lineOf none (quoted l) w=.ok w' ∧ w'.inItem=false ∧
      w'.items.map InputItem.value=w.items.map InputItem.value++l := by
  induction l generalizing w with
  | nil => exact ⟨w,by simp [quoted,splitLoop],hi,by simp⟩
  | cons s l ih =>
    obtain ⟨w',hrun,hitem,hvalues⟩ := ih (w := w.addLine lineOf s) rfl rfl
    have hcons : quoted (s::l)=wordOf s++newline::quoted l := by simp [quoted]
    refine ⟨w',?_,hitem,?_⟩
    · rw [hcons,splitLoop_line lineOf s _ hw,hrun]
    · simpa [Words.addLine] using hvalues

end

theorem splitQuoted_quoted (l : List Bytes) (useContinuation : Bool) :
    (splitQuoted (quoted l) useContinuation).map (map InputItem.value)=.ok l := by
  unfold splitQuoted
  extract_lets lineOf
  obtain ⟨w,hrun,hitem,hvalues⟩ := splitLoop_quoted lineOf l (w := {}) rfl rfl
  have hflush : w.flush lineOf=w := if_neg (by simp [hitem])
  rw [hrun]
  simpa [Except.map,hflush] using hvalues

def Options.form (o : Options) (l : List Bytes) : Bytes :=
  if o.null then terminated 0 l
  else if o.delim≠[] then terminated (.ofNat (unescapeDelim o.delim)) l
  else quoted l

/-- The strings can be written: the delimiter is ASCII and stands in none of them. -/
def Options.Writes (o : Options) (l : List Bytes) : Prop :=
  if o.null then ∀s∈l,(0 : UInt8)∉s
  else o.delim≠[]→
    unescapeDelim o.delim<128 ∧ ∀s∈l,.ofNat (unescapeDelim o.delim)∉s

theorem filter_ne_nil_eq_self_iff : l.filter (·≠[])=l ↔ []∉l := by
  rw [filter_eq_self]
  exact ⟨fun h hmem => by simpa using h [] hmem,fun h s hs => by
    have : s≠[] := fun hnil => h (hnil ▸ hs)
    simpa using this⟩

theorem plainItems_terminated_iff {n : ℕ} (hn : n<128) (h : ∀s∈l,.ofNat n∉s) :
    (plainItems (splitOn (terminated (.ofNat n) l) n)).map InputItem.value=l ↔ []∉l := by
  rw [values_plainItems,splitOn_terminated hn h,filter_ne_nil_eq_self_iff]

/-- Without `-E` and `-I` a list of strings is read back from its form exactly if that is the quoted
one or no string is empty. -/
theorem readItems_form_iff (o : Options) (l : List Bytes) (hE : o.eof=[])
    (hI : o.replaceSet=false) (h : o.Writes l) :
    (readItems (o.form l) o).map (map InputItem.value)=.ok l ↔
      (o.null=true ∨ o.delim≠[] → []∉l) := by
  unfold readItems Options.form
  unfold Options.Writes at h
  by_cases hnull : o.null=true
  · rw [if_pos hnull] at h
    have := plainItems_terminated_iff (by decide) h
    simpa [hE,hI,hnull,Except.map] using this
  rw [if_neg hnull] at h
  by_cases hdelim : o.delim=[]
  · have := splitQuoted_quoted l (0<o.maxLines)
    simpa [hE,hI,hnull,hdelim] using this
  · obtain ⟨hascii,hfree⟩ := h hdelim
    have := plainItems_terminated_iff hascii hfree
    simpa [hE,hI,hnull,hdelim,Except.map] using this

theorem readItems_form_quoted :
    (readItems (Options.form {} [ascii "a b",[]]) {}).map (map InputItem.value) =
      .ok [ascii "a b",[]] :=
  (readItems_form_iff {} _ rfl rfl (fun h => absurd rfl h)).mpr (by decide)

/-- The empty string does not come back under `-0`. -/
theorem not_readItems_form_null :
    (readItems (Options.form { null := true } [ascii "a",[]]) { null := true }).map
      (map InputItem.value)≠.ok [ascii "a",[]] := by
  decide

end Coreutils.XargsInput
