import Coreutils.GoText
import Mathlib.Data.List.Intervals

/-!
# The pieces of csplit

Patterns are resolved to split points, the lines at which a piece ends and the next one starts.
Without `--suppress-matched` they are one line and the pieces are the whole input. With it the next
piece starts after the line that matched, which is the line after the piece only without an offset.
-/

namespace Coreutils.CsplitPieces
open List GoText

structure SplitPoint where
  line : ℕ
  nextStart : ℕ
  skip : Bool := false
  deriving DecidableEq,Repr

structure PatternSpec where
  raw : Bytes
  expr : Bytes := []
  offset : ℤ := 0
  skip : Bool := false
  regex : Bool := false

def slash : UInt8 := 47

def percent : UInt8 := 37

def unsupported (pattern : Bytes) : Bytes :=
  ascii "pattern form '" ++ pattern ++
    ascii "' (supported: line numbers, /REGEXP/[+-N], %REGEXP%[+-N])"

/-- `findClosingDelimiter`: the text before the delimiter and the text after it. -/
def closing (delim : UInt8) : Bool→Bytes→Bytes→Option (Bytes×Bytes)
  | _,_,[] => none
  | escaped,expr,c::s =>
    if escaped then closing delim false (expr++[c]) s
    else if c=92 then closing delim true (expr++[c]) s
    else if c=delim then some (expr,s)
    else closing delim false (expr++[c]) s

def parseOffset : Bytes→Option ℤ
  | [] => some 0
  | c::s => if c=43 then atoi? s else if c=45 then (atoi? s).map (-·) else atoi? (c::s)

def parsePattern : Bytes→Except Bytes PatternSpec
  | [] => .ok { raw := [] }
  | delim::s =>
    if delim≠slash ∧ delim≠percent then .ok { raw := delim::s }
    else
      match closing delim false [] s with
      | none => .error (unsupported (delim::s))
      | some (expr,tail) =>
        match parseOffset tail with
        | none => .error (ascii "invalid offset in pattern '" ++ delim::s++ascii "'")
        | some offset =>
          .ok { raw := delim::s,expr,offset,skip := delim=percent,regex := true }

inductive Repeat where
  | count (n : ℕ)
  | toEOF

/-- `parseRepeat`; nothing if the pattern is no repeat count. -/
def parseRepeat (pattern : Bytes) : Except Bytes (Option Repeat) :=
  if pattern=ascii "\x7b*\x7d" then .ok (some .toEOF)
  else if pattern.head?=some 123 ∧ pattern.getLast?=some 125 then
    match atoi? (pattern.drop 1).dropLast with
    | some n => if n<0 then .error (ascii "invalid repeat count: '" ++ pattern++ascii "'")
      else .ok (some (.count n.toNat))
    | none => .error (ascii "invalid repeat count: '" ++ pattern++ascii "'")
  else .ok none

/-- How a regular expression is compiled, and how the result matches a line. -/
abbrev Compile := Bytes→Option (Bytes→Except Bytes Bool)

def findFrom (matches? : Bytes→Except Bytes Bool) : ℕ→List Bytes→Except Bytes (Option ℕ)
  | _,[] => .ok none
  | i,line::lines =>
    match matches? (if line.getLast?=some newline then line.dropLast else line) with
    | .error e => .error e
    | .ok true => .ok (some i)
    | .ok false => findFrom matches? (i+1) lines

def outOfRange (pattern : Bytes) : Bytes :=
  ascii "line number out of range: '" ++ pattern++ascii "'"

section
variable (compile : Compile) (lines : List Bytes) (suppressMatched : Bool)

def numberPoint (idx : ℕ) : SplitPoint where
  line := idx
  nextStart := if suppressMatched then idx+1 else idx

def resolveNumber (pattern : Bytes) : Except Bytes (Option (SplitPoint×ℕ)) :=
  match atoi? pattern with
  | none => .error (unsupported pattern)
  | some n =>
    if n<1 ∨ lines.length<n then .error (outOfRange pattern)
    else .ok (some (numberPoint suppressMatched (n.toNat-1),n.toNat-1))

def regexPoint (skip : Bool) (found line : ℕ) : SplitPoint where
  line
  nextStart := if suppressMatched then found+1 else line
  skip

/-- The regular-expression form of `resolveOnePattern`. A sum beyond `int` is out of range. -/
def resolveRegex (pattern : Bytes) (spec : PatternSpec) (start : ℕ) :
    Except Bytes (Option (SplitPoint×ℕ)) :=
  match compile spec.expr with
  | none => .error (ascii "invalid regular expression '" ++ spec.expr++ascii "'")
  | some matches? =>
    match findFrom matches? start (lines.drop start) with
    | .error e => .error (ascii "regular expression '" ++ spec.expr++ascii "': " ++ e)
    | .ok none => .ok none
    | .ok (some found) =>
      if found+spec.offset<0 ∨ lines.length<found+spec.offset then
        .error (outOfRange pattern)
      else
        .ok (some (regexPoint suppressMatched spec.skip found (found+spec.offset).toNat,found+1))

/-- `resolveOnePattern`: the split point and where to search on, or nothing without a match. -/
def resolveOnePattern (pattern : Bytes) (start : ℕ) : Except Bytes (Option (SplitPoint×ℕ)) :=
  (parsePattern pattern).bind fun spec =>
    if spec.regex then resolveRegex compile lines suppressMatched pattern spec start
    else resolveNumber lines suppressMatched spec.raw

structure Resolving where
  points : List SplitPoint := []
  start : ℕ := 0
  last : Bytes := []
  lastNum : ℕ := 0
  lastLine : ℕ := 0

abbrev Failure := List SplitPoint×Bytes

def notFound (pattern : Bytes) : Bytes := ascii "match not found: '" ++ pattern++ascii "'"

def Resolving.add (st : Resolving) (point : SplitPoint) (start : ℕ) : Resolving :=
  { st with points := st.points++[point],start }

def repeatNumber : ℕ→Resolving→Except Failure Resolving
  | 0,st => .ok st
  | n+1,st =>
    let next := st.lastLine+st.lastNum
    if lines.length<next then
      .error (st.points,ascii "'" ++ itoa next++ascii "': line number out of range")
    else
      repeatNumber n { st.add (numberPoint suppressMatched (next-1)) (next-1) with
        lastLine := next }

def repeatRegex : ℕ→Resolving→Except Failure Resolving
  | 0,st => .ok st
  | n+1,st =>
    match resolveOnePattern compile lines suppressMatched st.last st.start with
    | .error e => .error (st.points,e)
    | .ok none => .error (st.points,notFound st.last)
    | .ok (some (point,nextSearch)) => repeatRegex n (st.add point nextSearch)

def repeatToEOF : ℕ→Resolving→Except Failure Resolving
  | 0,st => .ok st
  | n+1,st =>
    match resolveOnePattern compile lines suppressMatched st.last st.start with
    | .error e => .error (st.points,e)
    | .ok none => .ok st
    | .ok (some (point,nextSearch)) => repeatToEOF n (st.add point nextSearch)

/-- A repeat count in `resolvePatterns`. Every round goes on by a line at least, so a loop to the
end of the file has at most one round more than there are lines. -/
def resolveRepeat (st : Resolving) (r : Repeat) : Except Failure Resolving :=
  if st.last=[] then .error (st.points,ascii "missing pattern before repeat count")
  else
    match r with
    | .toEOF =>
      if 0<st.lastNum then repeatNumber lines suppressMatched (lines.length+1) st
      else repeatToEOF compile lines suppressMatched (lines.length+1) st
    | .count n =>
      if 0<st.lastNum then repeatNumber lines suppressMatched n st
      else repeatRegex compile lines suppressMatched n st

def resolvePattern (st : Resolving) (pattern : Bytes) : Except Failure Resolving :=
  match resolveOnePattern compile lines suppressMatched pattern st.start with
  | .error e => .error (st.points,e)
  | .ok none => .error (st.points,notFound pattern)
  | .ok (some (point,nextSearch)) =>
    match atoi? pattern with
    | some n =>
      .ok { st.add point nextSearch with last := pattern,lastNum := n.toNat,lastLine := n.toNat }
    | none => .ok { st.add point nextSearch with last := pattern,lastNum := 0 }

def resolveOperand (st : Resolving) (pattern : Bytes) : Except Failure Resolving :=
  match parseRepeat pattern with
  | .error e => .error (st.points,e)
  | .ok (some r) => resolveRepeat compile lines suppressMatched st r
  | .ok none => resolvePattern compile lines suppressMatched st pattern

def resolvePatterns (patterns : List Bytes) : Except Failure (List SplitPoint) :=
  (patterns.foldlM (resolveOperand compile lines suppressMatched) {}).map Resolving.points

end

def inputLines (data : Bytes) : List Bytes := (readLines newline [] data).filter (·≠[])

theorem flatten_inputLines (data : Bytes) : (inputLines data).flatten=data := by
  have := flatten_readLines newline [] data
  rw [nil_append] at this
  rw [←this,inputLines,this,flatten_filter_ne_nil,this]

/-- The lines of the pieces that `writePieces` writes: where each starts and ends. -/
def pieceBounds (n : ℕ) : List SplitPoint→ℕ→Except Bytes (List (ℕ×ℕ))
  | [],start => .ok [(start,n)]
  | point::points,start =>
    if point.line<start then .error (ascii "split point moved backwards")
    else
      (pieceBounds n points point.nextStart).map fun rest =>
        if point.skip then rest else (start,point.line)::rest

def piece (lines : List Bytes) (bounds : ℕ×ℕ) : Bytes :=
  ((lines.drop bounds.1).take (bounds.2-bounds.1)).flatten

/-- `writePieces`, with files that can be written. -/
def writePieces (lines : List Bytes) (points : List SplitPoint) (elideEmpty : Bool) :
    Except Bytes (List Bytes) :=
  (pieceBounds lines.length points 0).map fun bounds =>
    let pieces := bounds.map (piece lines)
    if elideEmpty then pieces.filter (·≠[]) else pieces

def written (bounds : List (ℕ×ℕ)) : List ℕ := bounds.flatMap fun (a,b) => List.Ico a b

/-- Where a piece starts, the next one does not start before it. -/
def Linked : ℕ→List SplitPoint→Prop
  | _,[] => True
  | start,p::points => (start≤p.line→start≤p.nextStart) ∧ Linked p.nextStart points

theorem map_ok {ε α β : Type} {x : Except ε α} {f : α→β} {b : β} :
    x.map f=.ok b ↔ ∃a,x=.ok a ∧ f a=b := by
  cases x <;> simp [Except.map]

structure Writes (n : ℕ) (points : List SplitPoint) (start : ℕ) (bounds : List (ℕ×ℕ)) : Prop where
  eq : pieceBounds n points start=.ok bounds
  le : ∀p∈points,p.line≤n ∧ p.nextStart≤n
  noSkip : ∀p∈points,p.skip=false

variable {p : SplitPoint}

section
variable {n start : ℕ} {bounds : List (ℕ×ℕ)} {points : List SplitPoint}

theorem writes_nil (h : Writes n [] start bounds) : written bounds=List.Ico start n := by
  have heq : bounds=[(start,n)] := (Except.ok.inj h.eq).symm
  simp [written,heq]

theorem writes_cons (h : Writes n (p::points) start bounds) :
    start≤p.line ∧ p.line≤n ∧ p.nextStart≤n ∧ ∃rest,Writes n points p.nextStart rest ∧
        written bounds=List.Ico start p.line++written rest := by
  have heq := h.eq
  have hle := h.le p mem_cons_self
  rw [pieceBounds] at heq
  split at heq
  · cases heq
  · obtain ⟨rest,hrest,rfl⟩ := map_ok.mp heq
    refine ⟨by omega,hle.1,hle.2,rest,⟨hrest,fun q hq => h.le q (by simp [hq]),
      fun q hq => h.noSkip q (by simp [hq])⟩,?_⟩
    simp [written,h.noSkip p mem_cons_self]

theorem linked_of_next {start : ℕ} (h : ∀p∈points,p.nextStart=p.line+1) : Linked start points := by
  induction points generalizing start with
  | nil => trivial
  | cons p points ih =>
    have := h p mem_cons_self
    exact ⟨fun _ => by omega,ih fun q hq => h q (by simp [hq])⟩

/-- One line is missing for each split point, that at which the next piece would start. -/
structure RemovesOne (n start : ℕ) (points : List SplitPoint) (kept : List ℕ) : Prop where
  eq : kept=(List.Ico start n).filter (·∉points.map SplitPoint.line)
  nodup : (points.map SplitPoint.line).Nodup
  lt : ∀p∈points,p.line<n

/-- A split point that leaves out exactly its own line. -/
theorem filter_split {L : List ℕ} {l : ℕ} (hlo : start≤l) (hhi : l<n) (hL : ∀x∈L,l<x) :
    (List.Ico start n).filter (·∉l::L) = List.Ico start l++(List.Ico (l+1) n).filter (·∉L) := by
  rw [←List.Ico.append_consecutive hlo hhi.le,List.Ico.eq_cons hhi,filter_append,
    filter_cons_of_neg (by simp)]
  congr 1
  · refine filter_eq_self.mpr fun x hx => ?_
    have hx := (List.Ico.mem.mp hx).2
    have hnot : x∉L := fun hmem => by
      have := hL x hmem
      omega
    simp only [mem_cons,not_or,decide_eq_true_eq]
    exact ⟨by omega,hnot⟩
  · refine filter_congr fun x hx => ?_
    have hx := (List.Ico.mem.mp hx).1
    simp only [mem_cons,decide_eq_decide,not_or,and_iff_right_iff_imp]
    omega

section
variable (h : Writes n points start bounds)
include h

/-- Pieces that start where the piece before ends are the whole input. -/
theorem written_eq (hstart : start≤n)
    (hsame : ∀p∈points,p.nextStart=p.line) : written bounds=List.Ico start n := by
  induction points generalizing start bounds with
  | nil => exact writes_nil h
  | cons p points ih =>
    obtain ⟨hlo,hhi,hnext,rest,hrest,heq⟩ := writes_cons h
    rw [hsame p mem_cons_self] at hrest
    rw [heq,ih hrest hhi fun q hq => hsame q (by simp [hq])]
    exact List.Ico.append_consecutive hlo hhi

theorem ge_of_linked (hlinked : Linked start points) :
    (∀p∈points,start≤p.line) ∧ ∀x∈written bounds,start≤x := by
  induction points generalizing start bounds with
  | nil =>
    rw [writes_nil h]
    exact ⟨by simp,fun x hx => (List.Ico.mem.mp hx).1⟩
  | cons p points ih =>
    obtain ⟨hlo,-,-,rest,hrest,heq⟩ := writes_cons h
    have hnext := hlinked.1 hlo
    obtain ⟨hlines,hkept⟩ := ih hrest hlinked.2
    rw [heq]
    exact ⟨forall_mem_cons.mpr ⟨hlo,fun q hq => hnext.trans (hlines q hq)⟩,forall_mem_append.mpr
      ⟨fun x hx => (List.Ico.mem.mp hx).1,fun x hx => hnext.trans (hkept x hx)⟩⟩

theorem removesOne_of_next
    (hnext : ∀p∈points,p.nextStart=p.line+1) : RemovesOne n start points (written bounds) := by
  induction points generalizing start bounds with
  | nil => exact ⟨by simp [writes_nil h],by simp,by simp⟩
  | cons p points ih =>
    obtain ⟨hlo,hhi,hn,rest,hrest,heq⟩ := writes_cons h
    have hp := hnext p mem_cons_self
    rw [hp] at hrest hn
    have hnext' : ∀q∈points,q.nextStart=q.line+1 := fun q hq => hnext q (by simp [hq])
    have ih := ih hrest hnext'
    have hafter : ∀x∈points.map SplitPoint.line,p.line<x := by
      have hlinked : Linked (p.line+1) points := linked_of_next hnext'
      intro x hx
      obtain ⟨q,hq,rfl⟩ := mem_map.mp hx
      exact (ge_of_linked hrest hlinked).1 q hq
    refine ⟨?_,?_,forall_mem_cons.mpr ⟨hn,ih.lt⟩⟩
    · rw [heq,ih.eq,map_cons,filter_split hlo hn hafter]
    · rw [map_cons,nodup_cons]
      exact ⟨fun hmem => lt_irrefl _ (hafter _ hmem),ih.nodup⟩

/-- If each split point leaves out its own line, the next piece starts after that line. -/
theorem next_of_removesOne
    (hlinked : Linked start points) (hremoves : RemovesOne n start points (written bounds)) :
    ∀p∈points,p.nextStart=p.line+1 := by
  induction points generalizing start bounds with
  | nil => simp
  | cons p points ih =>
    obtain ⟨hlo,hhi,hn,rest,hrest,heq⟩ := writes_cons h
    have hlt := hremoves.lt p mem_cons_self
    have hmono := hlinked.1 hlo
    obtain ⟨hge,hkeptge⟩ := ge_of_linked hrest hlinked.2
    have hkept : ∀x,x∈List.Ico start p.line++written rest ↔
        (start≤x ∧ x<n) ∧ x≠p.line ∧ x∉points.map SplitPoint.line := by
      intro x
      rw [←heq,hremoves.eq]
      simp
    have hnodup : (List.Ico start p.line++written rest).Nodup := by
      rw [←heq,hremoves.eq]
      exact (List.Ico.nodup start n).filter _
    have hdisjoint := (nodup_append.mp hnodup).2.2
    obtain ⟨hfirst,hnodupL⟩ := nodup_cons.mp hremoves.nodup
    have hp : p.nextStart=p.line+1 := by
      rcases lt_trichotomy p.nextStart (p.line+1) with hless | hequal | hmore
      · -- the next piece would repeat a line, or hold the one that is left out
        exfalso
        have hnotin : p.nextStart∉written rest := by
          intro hmem
          rcases lt_or_ge p.nextStart p.line with hin | hin
          · exact hdisjoint _ (List.Ico.mem.mpr ⟨hmono,hin⟩) _ hmem rfl
          · exact ((hkept p.nextStart).mp (mem_append_right _ hmem)).2.1 (by omega)
        cases points with
        | nil =>
          rw [writes_nil hrest] at hnotin
          exact hnotin (List.Ico.mem.mpr ⟨le_rfl,by omega⟩)
        | cons q points =>
          obtain ⟨hqlo,-,-,rest',-,hrest'⟩ := writes_cons hrest
          rw [hrest',mem_append,List.Ico.mem] at hnotin
          have hneq : q.line≠p.line := fun heq' => hfirst (by simp [heq'])
          have hmem : q.line∈List.Ico start p.line := List.Ico.mem.mpr ⟨by omega,by omega⟩
          exact ((hkept q.line).mp (mem_append_left _ hmem)).2.2 (by simp)
      · exact hequal
      · -- the line after the one that is left out is missing too
        exfalso
        have hnot : p.line+1∉points.map SplitPoint.line := by
          intro hmem
          obtain ⟨q,hq,hline⟩ := mem_map.mp hmem
          have := hge q hq
          omega
        have hmem := (hkept (p.line+1)).mpr ⟨⟨by omega,by omega⟩,by omega,hnot⟩
        rcases mem_append.mp hmem with hmem | hmem
        · have := (List.Ico.mem.mp hmem).2
          omega
        · have := hkeptge _ hmem
          omega
    rw [hp] at hrest hge
    have hafter : ∀x∈points.map SplitPoint.line,p.line<x := by
      intro x hx
      obtain ⟨q,hq,rfl⟩ := mem_map.mp hx
      exact hge q hq
    refine forall_mem_cons.mpr ⟨hp,ih hrest (hp ▸ hlinked.2) ⟨?_,hnodupL,fun q hq => ?_⟩⟩
    · have := hremoves.eq
      rw [heq,map_cons,filter_split hlo hlt hafter] at this
      exact append_cancel_left this
    · exact hremoves.lt q (by simp [hq])

theorem removesOne_iff (hlinked : Linked start points) :
    RemovesOne n start points (written bounds) ↔ ∀p∈points,p.nextStart=p.line+1 :=
  ⟨next_of_removesOne h hlinked,removesOne_of_next h⟩

end

end

/-- The offset that a pattern gives; zero for a line number and a repeat count. -/
def offsetOf (pattern : Bytes) : ℤ :=
  match parsePattern pattern with
  | .ok spec => spec.offset
  | .error _ => 0

/-- A split point of a pattern, when the search has gone on from `start` to `next`. -/
structure Made (suppressMatched : Bool) (n start : ℕ) (pattern : Bytes) (p : SplitPoint)
    (next : ℕ) : Prop where
  le : p.line≤n ∧ p.nextStart≤n
  same : suppressMatched=false→p.nextStart=p.line
  after : suppressMatched=true→(p.nextStart=p.line+1 ↔ offsetOf pattern=0)
  linked : suppressMatched=true→
    (p.nextStart=p.line+1 ∨ start<p.nextStart) ∧ p.nextStart≤next+1
  noSkip : pattern.head?≠some percent→p.skip=false

variable {pattern : Bytes} {spec : PatternSpec}

theorem parsePattern_plain (hs : pattern.head?≠some slash)
    (hp : pattern.head?≠some percent) : parsePattern pattern=.ok { raw := pattern } := by
  cases pattern with
  | nil => rfl
  | cons c s =>
    rw [parsePattern,if_pos ⟨by simpa using hs,by simpa using hp⟩]

theorem offsetOf_plain (hs : pattern.head?≠some slash)
    (hp : pattern.head?≠some percent) : offsetOf pattern=0 := by
  rw [offsetOf,parsePattern_plain hs hp]

theorem plain_of_atoi {n : ℤ} (h : atoi? pattern=some n) :
    pattern.head?≠some slash ∧ pattern.head?≠some percent := by
  cases pattern with
  | nil => simp
  | cons c s =>
    constructor
    all_goals
      intro hc
      obtain rfl := Option.some.inj hc
      simp [atoi?,signed,slash,percent,isDigit] at h

theorem parsePattern_cases (h : parsePattern pattern=.ok spec) :
    (spec.regex=false→spec={ raw := pattern }) ∧ (pattern.head?≠some percent→spec.skip=false) := by
  cases pattern with
  | nil =>
    obtain rfl := Except.ok.inj h
    exact ⟨fun _ => rfl,fun _ => rfl⟩
  | cons delim s =>
    rw [parsePattern] at h
    split at h
    · obtain rfl := Except.ok.inj h
      exact ⟨fun _ => rfl,fun _ => rfl⟩
    split at h
    · cases h
    · split at h
      · cases h
      · obtain rfl := Except.ok.inj h
        exact ⟨by simp,by simp⟩

section
variable {compile : Compile} {lines : List Bytes} {suppressMatched : Bool} {start next : ℕ}
  {p : SplitPoint}

theorem made_number {n idx : ℕ} (hidx : idx<n) (hoffset : offsetOf pattern=0) :
    Made suppressMatched n start pattern (numberPoint suppressMatched idx) idx := by
  cases suppressMatched with
  | false => exact ⟨⟨hidx.le,hidx.le⟩,fun _ => rfl,by simp,by simp,fun _ => rfl⟩
  | true =>
    exact ⟨⟨hidx.le,hidx⟩,by simp,fun _ => by simp [numberPoint,hoffset],
      fun _ => ⟨.inl rfl,le_rfl⟩,fun _ => rfl⟩

theorem findFrom_some {matches? : Bytes→Except Bytes Bool} {i found : ℕ} {ls : List Bytes}
    (h : findFrom matches? i ls=.ok (some found)) : i≤found ∧ found < i+ls.length := by
  induction ls generalizing i with
  | nil => simp [findFrom] at h
  | cons line ls ih =>
    rw [findFrom] at h
    split at h
    · cases h
    · simp only [Except.ok.injEq,Option.some.injEq] at h
      simp only [length_cons]
      omega
    · have := ih h
      simp only [length_cons]
      omega

theorem resolveNumber_made (hplain : parsePattern pattern=.ok { raw := pattern })
    (h : resolveNumber lines suppressMatched pattern=.ok (some (p,next))) :
    Made suppressMatched lines.length start pattern p next := by
  have hoffset : offsetOf pattern=0 := by rw [offsetOf,hplain]
  unfold resolveNumber at h
  split at h
  · cases h
  · split at h
    · cases h
    · obtain ⟨rfl,rfl⟩ := h
      exact made_number (by omega) hoffset

theorem resolveRegex_made (hspec : parsePattern pattern=.ok spec)
    (hskip : pattern.head?≠some percent→spec.skip=false)
    (h : resolveRegex compile lines suppressMatched pattern spec start=.ok (some (p,next))) :
    Made suppressMatched lines.length start pattern p next := by
  have hoffset : offsetOf pattern=spec.offset := by rw [offsetOf,hspec]
  unfold resolveRegex at h
  split at h
  · cases h
  split at h
  · cases h
  · cases h
  rename_i found hfound
  split at h
  · cases h
  have hfound := findFrom_some hfound
  rw [length_drop] at hfound
  obtain ⟨rfl,rfl⟩ := h
  cases suppressMatched with
  | false =>
    have hle : (found+spec.offset).toNat≤lines.length := by omega
    exact ⟨⟨hle,hle⟩,fun _ => rfl,by simp,by simp,hskip⟩
  | true =>
    have hiff : found+1=(found+spec.offset).toNat+1 ↔ offsetOf pattern=0 := by omega
    have hle : (found+spec.offset).toNat≤lines.length := by omega
    exact ⟨⟨hle,hfound.2.trans_le (by omega)⟩,by simp,fun _ => hiff,
      fun _ => ⟨.inr (Nat.lt_succ_of_le hfound.1),Nat.le_succ _⟩,hskip⟩

theorem resolveOnePattern_made
    (h : resolveOnePattern compile lines suppressMatched pattern start=.ok (some (p,next))) :
    Made suppressMatched lines.length start pattern p next := by
  unfold resolveOnePattern at h
  cases hspec : parsePattern pattern with
  | error e =>
    rw [hspec] at h
    cases h
  | ok spec =>
    rw [hspec] at h
    simp only [Except.bind] at h
    obtain ⟨hregex,hskip⟩ := parsePattern_cases hspec
    split_ifs at h with hnot
    · exact resolveRegex_made hspec hskip h
    · obtain rfl := hregex (by simpa using hnot)
      exact resolveNumber_made hspec h

end

def endOf : ℕ→List SplitPoint→ℕ
  | start,[] => start
  | _,p::points => endOf p.nextStart points

theorem endOf_append (start : ℕ) (points : List SplitPoint) (p : SplitPoint) :
    endOf start (points++[p])=p.nextStart := by
  induction points generalizing start with
  | nil => rfl
  | cons q points ih => exact ih q.nextStart

variable {points : List SplitPoint} {patterns : List Bytes}

theorem Linked.append {start : ℕ}
    (h : Linked start points) (hp : endOf start points≤p.line→endOf start points≤p.nextStart) :
    Linked start (points++[p]) := by
  induction points generalizing start with
  | nil => exact ⟨hp,trivial⟩
  | cons q points ih => exact ⟨h.1,ih h.2 hp⟩

/-- What is known of the split points of the operands read so far. -/
structure Resolved (suppressMatched : Bool) (n : ℕ) (done : List Bytes) (st : Resolving) :
    Prop where
  le : ∀p∈st.points,p.line≤n ∧ p.nextStart≤n
  same : suppressMatched=false→∀p∈st.points,p.nextStart=p.line
  after : suppressMatched=true→
    ((∀p∈st.points,p.nextStart=p.line+1) ↔ ∀q∈done,offsetOf q=0)
  linked : suppressMatched=true→Linked 0 st.points ∧ endOf 0 st.points ≤ st.start+1
  noSkip : (∀q∈done,q.head?≠some percent)→∀p∈st.points,p.skip=false
  last : st.last≠[]→st.last∈done
  number : 0<st.lastNum → offsetOf st.last=0

section
variable {compile : Compile} {lines : List Bytes} {suppressMatched : Bool} {n rounds : ℕ}
  {done : List Bytes} {st st' : Resolving} {q : Bytes}

theorem resolved_start : Resolved suppressMatched n [] {} where
  le := by simp
  same := by simp
  after := by simp
  linked _ := ⟨trivial,Nat.zero_le _⟩
  noSkip := by simp
  last := by simp
  number h := absurd h (lt_irrefl 0)

section
variable (h : Resolved suppressMatched n done st)
include h

theorem Resolved.add {next : ℕ} (hp : Made suppressMatched n st.start q p next) :
    Resolved suppressMatched n (done++[q]) (st.add p next) where
  le := forall_mem_append.mpr ⟨h.le,by simpa using hp.le⟩
  same hs := forall_mem_append.mpr ⟨h.same hs,by simpa using hp.same hs⟩
  after hs := by
    simp only [Resolving.add,forall_mem_append,h.after hs]
    simpa using fun _ => hp.after hs
  linked hs := by
    obtain ⟨hlinked,hend⟩ := h.linked hs
    obtain ⟨hmade,hnext⟩ := hp.linked hs
    refine ⟨hlinked.append fun hle => ?_,?_⟩
    · omega
    · rw [Resolving.add,endOf_append]
      exact hnext
  noSkip hplain := by
    obtain ⟨hdone,hq⟩ := forall_mem_append.mp hplain
    exact forall_mem_append.mpr ⟨h.noSkip hdone,by simpa using hp.noSkip (by simpa using hq)⟩
  last hne := mem_append_left _ (h.last hne)
  number := h.number

theorem Resolved.of_done {done' : List Bytes}
    (hafter : (∀q∈done,offsetOf q=0) ↔ ∀q∈done',offsetOf q=0)
    (hplain : (∀q∈done',q.head?≠some percent)→∀q∈done,q.head?≠some percent)
    (hlast : st.last≠[]→st.last∈done') : Resolved suppressMatched n done' st :=
  ⟨h.le,h.same,fun hs => (h.after hs).trans hafter,h.linked,h.noSkip ∘ hplain,hlast,h.number⟩

/-- A pattern that has been read already may be used again. -/
theorem Resolved.again (hlast : st.last≠[]) {next : ℕ}
    (hp : Made suppressMatched n st.start st.last p next) :
    Resolved suppressMatched n done (st.add p next) := by
  have hmem := h.last hlast
  refine (h.add hp).of_done ?_ (fun hplain => ?_) h.last
  · simpa [or_imp,forall_and] using fun hall => hall _ hmem
  · simpa [or_imp,forall_and] using ⟨hplain,hplain _ hmem⟩

theorem Resolved.setLastLine (lastLine : ℕ) :
    Resolved suppressMatched n done { st with lastLine } :=
  ⟨h.le,h.same,h.after,h.linked,h.noSkip,h.last,h.number⟩

end

theorem offsetOf_repeat {r : Repeat} (h : parseRepeat pattern=.ok (some r)) :
    offsetOf pattern=0 := by
  unfold parseRepeat at h
  split at h
  · rename_i heq
    rw [heq]
    decide
  · split_ifs at h with hbrace
    · exact offsetOf_plain (by simp [hbrace.1,slash]) (by simp [hbrace.1,percent])
    · cases h

section
variable (h : Resolved suppressMatched lines.length done st)
include h

theorem repeatNumber_resolved (hlast : st.last≠[]) (hnum : 0<st.lastNum)
    (hrun : repeatNumber lines suppressMatched rounds st=.ok st') :
    Resolved suppressMatched lines.length done st' := by
  induction rounds generalizing st with
  | zero => exact Except.ok.inj hrun ▸ h
  | succ rounds ih =>
    rw [repeatNumber] at hrun
    split at hrun
    · cases hrun
    · have hidx : st.lastLine+st.lastNum-1<lines.length := by omega
      have hp := h.again hlast (made_number hidx (h.number hnum))
      exact ih (hp.setLastLine (st.lastLine+st.lastNum)) hlast hnum hrun

theorem repeatRegex_resolved
    (hlast : st.last≠[]) (hrun : repeatRegex compile lines suppressMatched rounds st=.ok st') :
    Resolved suppressMatched lines.length done st' := by
  induction rounds generalizing st with
  | zero => exact Except.ok.inj hrun ▸ h
  | succ rounds ih =>
    rw [repeatRegex] at hrun
    split at hrun
    · cases hrun
    · cases hrun
    · rename_i hone
      exact ih (h.again hlast (resolveOnePattern_made hone)) hlast hrun

theorem repeatToEOF_resolved
    (hlast : st.last≠[]) (hrun : repeatToEOF compile lines suppressMatched rounds st=.ok st') :
    Resolved suppressMatched lines.length done st' := by
  induction rounds generalizing st with
  | zero => exact Except.ok.inj hrun ▸ h
  | succ rounds ih =>
    rw [repeatToEOF] at hrun
    split at hrun
    · cases hrun
    · exact Except.ok.inj hrun ▸ h
    · rename_i hone
      exact ih (h.again hlast (resolveOnePattern_made hone)) hlast hrun

theorem resolveRepeat_resolved {r : Repeat}
    (hrun : resolveRepeat compile lines suppressMatched st r=.ok st') :
    Resolved suppressMatched lines.length done st' := by
  unfold resolveRepeat at hrun
  split at hrun
  · cases hrun
  rename_i hlast
  cases r with
  | toEOF =>
    simp only at hrun
    split at hrun
    · exact repeatNumber_resolved h hlast ‹_› hrun
    · exact repeatToEOF_resolved h hlast hrun
  | count n =>
    simp only at hrun
    split at hrun
    · exact repeatNumber_resolved h hlast ‹_› hrun
    · exact repeatRegex_resolved h hlast hrun

theorem resolvePattern_resolved
    (hrun : resolvePattern compile lines suppressMatched st pattern=.ok st') :
    Resolved suppressMatched lines.length (done++[pattern]) st' := by
  unfold resolvePattern at hrun
  split at hrun
  · cases hrun
  · cases hrun
  rename_i hone
  have hp := h.add (resolveOnePattern_made hone)
  split at hrun
  · rename_i hnum
    obtain ⟨hs,hpc⟩ := plain_of_atoi hnum
    rw [←Except.ok.inj hrun]
    exact ⟨hp.le,hp.same,hp.after,hp.linked,hp.noSkip,fun _ => by simp,fun _ =>
      offsetOf_plain hs hpc⟩
  · rw [←Except.ok.inj hrun]
    exact ⟨hp.le,hp.same,hp.after,hp.linked,hp.noSkip,fun _ => by simp,
      fun hnum => absurd hnum (lt_irrefl 0)⟩

theorem resolveOperand_resolved
    (hrun : resolveOperand compile lines suppressMatched st pattern=.ok st') :
    Resolved suppressMatched lines.length (done++[pattern]) st' := by
  unfold resolveOperand at hrun
  split at hrun
  · cases hrun
  · rename_i hrepeat
    have hst := resolveRepeat_resolved h hrun
    refine hst.of_done ?_ (fun hplain q hq => hplain q (by simp [hq])) fun hne => by
      simp [hst.last hne]
    simp [or_imp,forall_and,offsetOf_repeat hrepeat]
  · exact resolvePattern_resolved h hrun

theorem resolveOperands_resolved
    (hrun : patterns.foldlM (resolveOperand compile lines suppressMatched) st=.ok st') :
    Resolved suppressMatched lines.length (done++patterns) st' := by
  induction patterns generalizing st done with
  | nil => simpa using Except.ok.inj hrun ▸ h
  | cons pattern patterns ih =>
    rw [foldlM_cons] at hrun
    cases hone : resolveOperand compile lines suppressMatched st pattern with
    | error e =>
      rw [hone] at hrun
      cases hrun
    | ok st₁ =>
      rw [hone] at hrun
      have := ih (resolveOperand_resolved h hone) hrun
      rwa [append_assoc] at this

end

end

def textAt (lines : List Bytes) (kept : List ℕ) : Bytes :=
  (kept.filterMap fun i => lines[i]?).flatten

theorem take_drop_eq {α : Type} (l : List α) (a b : ℕ) :
    (l.drop a).take (b-a)=(List.Ico a b).filterMap fun i => l[i]? := by
  rw [List.Ico]
  induction b-a generalizing a with
  | zero => simp
  | succ n ih =>
    rw [range'_succ,filterMap_cons,←ih]
    cases hget : l[a]? with
    | none =>
      have hlen := getElem?_eq_none_iff.mp hget
      simp [drop_of_length_le hlen,drop_of_length_le (Nat.le_succ_of_le hlen)]
    | some c =>
      obtain ⟨hlt,rfl⟩ := List.getElem?_eq_some_iff.mp hget
      rw [drop_eq_getElem_cons hlt,take_succ_cons]

theorem flatten_pieces (lines : List Bytes) (bounds : List (ℕ×ℕ)) :
    (bounds.map (piece lines)).flatten=textAt lines (written bounds) := by
  induction bounds with
  | nil => rfl
  | cons b bounds ih =>
    simp only [map_cons,flatten_cons,ih,piece,take_drop_eq]
    simp [textAt,written]

variable {files : List Bytes}

theorem writePieces_eq {lines : List Bytes} {elideEmpty : Bool}
    (h : writePieces lines points elideEmpty=.ok files) : ∃bounds,
      pieceBounds lines.length points 0=.ok bounds ∧
      files.flatten=textAt lines (written bounds) := by
  obtain ⟨bounds,hb,rfl⟩ := map_ok.mp h
  refine ⟨bounds,hb,?_⟩
  rw [←flatten_pieces]
  split
  · exact flatten_filter_ne_nil
  · rfl

theorem textAt_all (lines : List Bytes) : textAt lines (List.Ico 0 lines.length)=lines.flatten := by
  rw [textAt,←take_drop_eq]
  simp

/-- The pieces hold every line, or with `--suppress-matched` every line but one for each split
point, exactly if the option is not given or no pattern has an offset. -/
theorem pieces_iff (compile : Compile) (data : Bytes) (suppressMatched elideEmpty : Bool)
    (hplain : ∀q∈patterns,q.head?≠some percent)
    (hresolve : resolvePatterns compile (inputLines data) suppressMatched patterns=.ok points)
    (hwrite : writePieces (inputLines data) points elideEmpty=.ok files) :
    ∃bounds,pieceBounds (inputLines data).length points 0=.ok bounds ∧
      files.flatten=textAt (inputLines data) (written bounds) ∧
      (suppressMatched=false→files.flatten=data) ∧ (suppressMatched=true→
        (RemovesOne (inputLines data).length 0 points (written bounds) ↔
          ∀q∈patterns,offsetOf q=0)) := by
  obtain ⟨bounds,hbounds,htext⟩ := writePieces_eq hwrite
  obtain ⟨st,hrun,rfl⟩ := map_ok.mp hresolve
  have hst := resolveOperands_resolved resolved_start hrun
  rw [nil_append] at hst
  have hwrites : Writes (inputLines data).length st.points 0 bounds :=
    ⟨hbounds,hst.le,hst.noSkip hplain⟩
  refine ⟨bounds,hbounds,htext,fun hs => ?_,fun hs => ?_⟩
  · rw [htext,written_eq hwrites (Nat.zero_le _) (hst.same hs),textAt_all,flatten_inputLines]
  · rw [removesOne_iff hwrites (hst.linked hs).1,hst.after hs]

def literal : Compile := fun expr => some fun line => .ok (line.tails.any expr.isPrefixOf)

theorem pieces_offset_kept : ∃bounds,pieceBounds 3 [⟨2,2,false⟩] 0=.ok bounds ∧
      [ascii "a\nm\n",ascii "b\n"].flatten =
        textAt (inputLines (ascii "a\nm\nb\n")) (written bounds) ∧
      [ascii "a\nm\n",ascii "b\n"].flatten=ascii "a\nm\nb\n" := by
  have hplain : ∀q∈[ascii "/m/+1"],q.head?≠some percent := by decide
  obtain ⟨bounds,hbounds,htext,hall,-⟩ := pieces_iff literal (ascii "a\nm\nb\n") false false
    hplain (by decide : _=Except.ok [⟨2,2,false⟩])
    (by decide : _=Except.ok [ascii "a\nm\n",ascii "b\n"])
  exact ⟨bounds,hbounds,htext,hall rfl⟩

/-- With the pattern `/m/+2` the line after the match is written twice and none is left out. -/
theorem not_pieces_offset_suppressed :
    resolvePatterns literal (inputLines (ascii "a\nm\nb\nc\n")) true [ascii "/m/+2"] =
      .ok [⟨3,2,false⟩] ∧ writePieces (inputLines (ascii "a\nm\nb\nc\n")) [⟨3,2,false⟩] false =
      .ok [ascii "a\nm\nb\n",ascii "b\nc\n"] ∧ [ascii "a\nm\nb\n",ascii "b\nc\n"].flatten ≠
      textAt (inputLines (ascii "a\nm\nb\nc\n")) ((List.Ico 0 4).filter (·∉[3])) := by
  decide

end Coreutils.CsplitPieces
