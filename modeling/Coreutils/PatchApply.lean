import Coreutils.PatchParse

/-!
# Applying patches

`pkg/patch/apply.go` and `ifdef.go`. The target's lines are read with checked accesses, so `none` is
an index out of range. The counts of a hunk may be any `int`; sums they enter are wrapped.
-/

namespace Coreutils.PatchApply
open GoText PatchParse

structure ApplyOptions where
  reverse : Bool := false
  fuzz : ℤ := 0
  ignoreWhitespace : Bool := false
  force : Bool := false
  deriving DecidableEq,Repr

inductive HunkOutcome where
  | hunkApplied | hunkAppliedFuzzy | hunkAlreadyApplied | hunkFailed
  deriving DecidableEq,Repr

/-- `HunkReport`; `placed` is the field `At`. -/
structure HunkReport where
  index : ℕ
  outcome : HunkOutcome
  fuzzUsed : ℤ := 0
  placed : ℤ := 0
  deriving DecidableEq,Repr

structure Result where
  lines : List Bytes := []
  noFinalNewline : Bool := false
  reports : List HunkReport := []
  rejects : List Hunk := []
  deriving DecidableEq,Repr

def reverseHunk (h : Hunk) : Hunk where
  oldStart := h.newStart
  oldCount := h.newCount
  newStart := h.oldStart
  newCount := h.oldCount
  lines := h.lines.map fun l =>
    match l.kind with
    | .lineDelete => { l with kind := .lineAdd }
    | .lineAdd => { l with kind := .lineDelete }
    | .lineContext => l

def orient (opts : ApplyOptions) (hunks : List Hunk) : List Hunk :=
  if opts.reverse then hunks.map reverseHunk else hunks

def oldSeq (lines : List HunkLine) : List Bytes :=
  (lines.filter (fun l => l.kind != .lineAdd)).map (·.text)

@[simp] theorem oldSeq_append (ls ls' : List HunkLine) :
    oldSeq (ls++ls')=oldSeq ls++oldSeq ls' := by
  simp [oldSeq]

def newSeq (lines : List HunkLine) : List Bytes :=
  (lines.filter (fun l => l.kind != .lineDelete)).map (·.text)

def clampInt (v lo hi : ℤ) : ℤ := if v<lo then lo else if v>hi then hi else v

def normalizeFrom : Bool→Bytes→Bytes
  | _,[] => []
  | inBlank,c::s =>
    if c=32 ∨ c=9 then
      if inBlank then normalizeFrom true s else 32::normalizeFrom true s
    else c::normalizeFrom false s

def normalizeWS (s : Bytes) : Bytes := normalizeFrom false s

def sameLine (ignoreWS : Bool) (t w : Bytes) : Bool :=
  if ignoreWS then normalizeWS t == normalizeWS w else t == w

def lineAt? (target : List Bytes) (i : ℤ) : Option Bytes :=
  if 0 ≤ i then target[i.toNat]? else none

def matchAt (target : List Bytes) (ignoreWS : Bool) : List Bytes→ℤ→Option Bool
  | [],_ => some true
  | w::want,pos => do
    let t ← lineAt? target pos
    if sameLine ignoreWS t w then matchAt target ignoreWS want (pos+1) else pure false

def searchOrderFrom (start minStart maxStart : ℤ) : ℕ→ℤ→List ℤ
  | 0,_ => []
  | fuel+1,d =>
    if start-d≥minStart ∨ start+d ≤ maxStart then
      (if start-d≥minStart then [start-d] else []) ++
        (if start+d ≤ maxStart then [start+d] else []) ++
        searchOrderFrom start minStart maxStart fuel (d+1)
    else []

def searchOrderWithin (start minStart maxStart : ℤ) : List ℤ :=
  start::searchOrderFrom start minStart maxStart (maxStart-minStart).toNat 1

def firstMatch (target want : List Bytes) (ignoreWS : Bool) : List ℤ→Option (Option ℤ)
  | [] => some none
  | cand::cands => do
    if ← matchAt target ignoreWS want cand then pure (some cand)
    else firstMatch target want ignoreWS cands

/-- `searchWithin`; the inner `none` is "not found". -/
def searchWithin (target want : List Bytes) (hint minStart maxStart : ℤ) (ignoreWS : Bool) :
    Option (Option ℤ) :=
  let sequenceMax : ℤ := target.length-want.length
  let minStart := if minStart<0 then 0 else minStart
  let maxStart := if maxStart>sequenceMax then sequenceMax else maxStart
  if minStart>maxStart then some none
  else if want=[] then some (some (clampInt hint minStart maxStart))
  else
    firstMatch target want ignoreWS
      (searchOrderWithin (clampInt hint minStart maxStart) minStart maxStart)

def search (target want : List Bytes) (hint : ℤ) (ignoreWS : Bool) : Option (Option ℤ) :=
  searchWithin target want hint 0 (target.length-want.length) ignoreWS

def edgeContextCounts (lines : List HunkLine) : ℕ×ℕ :=
  let lead := (lines.takeWhile (fun l => l.kind == .lineContext)).length
  let trail := (lines.reverse.takeWhile (fun l => l.kind == .lineContext)).length
  if lead+trail>lines.length then (lead,lines.length-lead) else (lead,trail)

/-- The search of `locateHunk` at one fuzz: the place the whole hunk would start at. -/
def placeAt (oldLines : List Bytes) (h : Hunk) (expected : ℤ) (ignoreWS : Bool)
    (peelLead peelTrail : ℕ) : Option (Option ℤ) := do
  let core := (h.lines.take (h.lines.length-peelTrail)).drop peelLead
  let pos ← searchWithin oldLines (oldSeq core) (wrap64 (expected+peelLead)) peelLead
    (wrap64 (wrap64 (oldLines.length-h.oldCount)+peelLead)) ignoreWS
  pure (pos.map (·-peelLead))

/-- The fuzz loop of `locateHunk`, which ends once all edge context is peeled. -/
def fuzzLoop (oldLines : List Bytes) (h : Hunk) (expected : ℤ) (opts : ApplyOptions) :
    ℕ→ℕ→Option (Option (ℤ×ℤ×HunkOutcome))
  | 0,_ => some none
  | fuel+1,f =>
    let (leadCtx,trailCtx) := edgeContextCounts h.lines
    let maxFuzz := max opts.fuzz 0
    if (f : ℤ) ≤ maxFuzz then do
      let peelLead := min f leadCtx
      let peelTrail := min f trailCtx
      match ← placeAt oldLines h expected opts.ignoreWhitespace peelLead peelTrail with
      | some pos =>
        pure (some (pos,f,if f>0 then .hunkAppliedFuzzy else .hunkApplied))
      | none =>
        if peelLead=leadCtx ∧ peelTrail=trailCtx ∧ (f : ℤ) < maxFuzz then pure none
        else fuzzLoop oldLines h expected opts fuel (f+1)
    else some none

def locateHunk (oldLines : List Bytes) (h : Hunk) (expected : ℤ) (opts : ApplyOptions) :
    Option (ℤ×ℤ×HunkOutcome) := do
  match ← fuzzLoop oldLines h expected opts (h.lines.length+2) 0 with
  | some r => pure r
  | none =>
    let failed : ℤ×ℤ×HunkOutcome := (clampInt expected 0 oldLines.length,0,.hunkFailed)
    if !opts.force && newSeq h.lines != [] then do
      match ← search oldLines (newSeq h.lines) expected opts.ignoreWhitespace with
      | some pos => pure (pos,0,.hunkAlreadyApplied)
      | none => pure failed
    else pure failed

structure State where
  out : List Bytes := []
  finalNoEOL : Bool
  cur : ℤ := 0
  offset : ℤ := 0
  reports : List HunkReport := []
  rejects : List Hunk := []
  deriving DecidableEq,Repr

def appendVerbatim (oldLines : List Bytes) (oldNoEOL : Bool) (i j : ℤ) (st : State) :
    Option State :=
  if j ≤ i then some st
  else do
    let lines ← slice? oldLines i j
    pure { st with out := st.out++lines,finalNoEOL := oldNoEOL && j == oldLines.length }

structure Replacement where
  repl : List Bytes
  lastNoEOL : Bool
  sawAny : Bool
  deriving DecidableEq,Repr

/-- The loop of `buildReplacement` from target line `ti` on. -/
def replaceFrom (oldLines : List Bytes) : List HunkLine→ℤ→Replacement→Option Replacement
  | [],_,r => some r
  | l::ls,ti,r =>
    match l.kind with
    | .lineContext => do
      let t ← lineAt? oldLines ti
      replaceFrom oldLines ls (ti+1) ⟨r.repl++[t],l.noEOL,true⟩
    | .lineDelete => replaceFrom oldLines ls (ti+1) r
    | .lineAdd => replaceFrom oldLines ls ti ⟨r.repl++[l.text],l.noEOL,true⟩

def buildReplacement (oldLines : List Bytes) (matchStart : ℤ) (lines : List HunkLine)
    (oldNoEOL : Bool) : Option Replacement :=
  replaceFrom oldLines lines matchStart ⟨[],oldNoEOL,false⟩

def State.reject (st : State) (idx : ℕ) (h : Hunk) : State :=
  { st with
    rejects := st.rejects++[h]
    reports := st.reports++[{ index := idx+1,outcome := .hunkFailed }] }

/-- One turn of the loop of `Apply`, for the hunk with index `idx`. -/
def applyHunk (oldLines : List Bytes) (oldNoEOL : Bool) (opts : ApplyOptions) (idx : ℕ) (h : Hunk)
    (st : State) : Option State := do
  let n : ℤ := oldLines.length
  let expected := wrap64 (h.oldStart+st.offset)
  let (matchStart,peelUsed,outcome) ← locateHunk oldLines h expected opts
  match outcome with
  | .hunkFailed =>
    let start := if matchStart<st.cur then st.cur else matchStart
    let stop := if matchStart<st.cur then st.cur else min (wrap64 (matchStart+h.oldCount)) n
    let st ← appendVerbatim oldLines oldNoEOL st.cur start st
    let st ← appendVerbatim oldLines oldNoEOL start stop st
    pure ({ st with cur := stop }.reject idx h)
  | .hunkAlreadyApplied =>
    let stop := wrap64 (matchStart+h.newCount)
    if stop>n ∨ matchStart<st.cur then pure (st.reject idx h)
    else do
      let st ← appendVerbatim oldLines oldNoEOL st.cur matchStart st
      let st ← appendVerbatim oldLines oldNoEOL matchStart stop st
      pure { st with
        cur := stop
        offset := wrap64 (matchStart-h.oldStart)
        reports := st.reports ++
          [{ index := idx+1,outcome := .hunkAlreadyApplied,placed := matchStart }] }
  | _ =>
    if matchStart<st.cur then do
      let stop := max (min (wrap64 (matchStart+h.oldCount)) n) st.cur
      let st ← appendVerbatim oldLines oldNoEOL st.cur stop st
      pure ({ st with cur := stop }.reject idx h)
    else do
      let st ← appendVerbatim oldLines oldNoEOL st.cur matchStart st
      let r ← buildReplacement oldLines matchStart h.lines oldNoEOL
      let cur := wrap64 (matchStart+h.oldCount)
      pure { st with
        out := st.out++r.repl
        cur := cur
        finalNoEOL :=
          if cur=n ∧ r.sawAny then r.lastNoEOL
          else if cur≥n then false
          else st.finalNoEOL
        offset := wrap64 (matchStart-h.oldStart)
        reports := st.reports ++
          [{ index := idx+1,outcome := outcome,fuzzUsed := peelUsed,placed := matchStart }] }

def applyHunks (oldLines : List Bytes) (oldNoEOL : Bool) (opts : ApplyOptions) :
    ℕ→List Hunk→State→Option State
  | _,[],st => some st
  | idx,h::hs,st => do
    let st ← applyHunk oldLines oldNoEOL opts idx h st
    applyHunks oldLines oldNoEOL opts (idx+1) hs st

def apply (oldLines : List Bytes) (oldNoEOL : Bool) (hunks : List Hunk) (opts : ApplyOptions) :
    Option Result := do
  let st ← applyHunks oldLines oldNoEOL opts 0 (orient opts hunks) { finalNoEOL := oldNoEOL }
  let st ← appendVerbatim oldLines oldNoEOL st.cur oldLines.length st
  pure ⟨st.out,st.finalNoEOL,st.reports,st.rejects⟩

/-! ## Both versions of every change, between preprocessor lines -/

/-- The deleted and added lines up to a context line, the target line after them and the rest. -/
def changeParts (oldLines : List Bytes) :
    List HunkLine→ℤ→Option (List Bytes×List Bytes×ℤ×List HunkLine)
  | [],ti => some ([],[],ti,[])
  | l::ls,ti =>
    match l.kind with
    | .lineContext => some ([],[],ti,l::ls)
    | .lineDelete => do
      let t ← lineAt? oldLines ti
      let (oldPart,newPart,ti,rest) ← changeParts oldLines ls (ti+1)
      pure (t::oldPart,newPart,ti,rest)
    | .lineAdd => do
      let (oldPart,newPart,ti,rest) ← changeParts oldLines ls ti
      pure (oldPart,l.text::newPart,ti,rest)

def conditional (define : Bytes) (oldPart newPart : List Bytes) : List Bytes :=
  let endif := ascii "#endif /* " ++ define++ascii " */"
  if oldPart≠[] ∧ newPart≠[] then
    (ascii "#ifndef " ++ define)::oldPart++ascii "#else" :: newPart++[endif]
  else if oldPart≠[] then (ascii "#ifndef " ++ define)::oldPart++[endif]
  else if newPart≠[] then (ascii "#ifdef " ++ define)::newPart++[endif]
  else []

/-- The loop over the lines of a hunk; a turn reads at least one. -/
def ifdefLines (oldLines : List Bytes) (define : Bytes) : ℕ→List HunkLine→ℤ→Option (List Bytes)
  | _,[],_ => some []
  | 0,_::_,_ => none
  | fuel+1,l::ls,ti =>
    if l.kind=.lineContext then do
      let t ← lineAt? oldLines ti
      let rest ← ifdefLines oldLines define fuel ls (ti+1)
      pure (t::rest)
    else do
      let (oldPart,newPart,ti,ls) ← changeParts oldLines (l::ls) ti
      let rest ← ifdefLines oldLines define fuel ls ti
      pure (conditional define oldPart newPart++rest)

structure IfdefState where
  out : List Bytes := []
  cur : ℤ := 0
  noFinalNewline : Bool
  reports : List HunkReport := []
  rejects : List Hunk := []
  deriving DecidableEq,Repr

/-- One turn of the loop of `ApplyIfdef`, for the hunk with index `i`. -/
def ifdefHunk (oldLines : List Bytes) (opts : ApplyOptions) (define : Bytes) (i : ℕ) (h : Hunk)
    (st : IfdefState) : Option IfdefState := do
  let (place,fuzz,outcome) ← locateHunk oldLines h h.oldStart opts
  if outcome=.hunkFailed ∨ outcome=.hunkAlreadyApplied ∨ place<st.cur then
    pure { st with
      reports := st.reports++[{ index := i+1,outcome := .hunkFailed }]
      rejects := st.rejects++[h] }
  else do
    let before ← slice? oldLines st.cur place
    let body ← ifdefLines oldLines define h.lines.length h.lines place
    let cur := wrap64 (place+h.oldCount)
    pure { st with
      out := st.out++before++body
      cur := cur
      noFinalNewline :=
        if cur=oldLines.length then
          match h.lines.getLast? with
          | some l => if l.kind=.lineContext then l.noEOL else false
          | none => false
        else st.noFinalNewline
      reports := st.reports ++
        [{ index := i+1
           outcome := if fuzz>0 then .hunkAppliedFuzzy else .hunkApplied
           fuzzUsed := fuzz
           placed := place }] }

def ifdefHunks (oldLines : List Bytes) (opts : ApplyOptions) (define : Bytes) :
    ℕ→List Hunk→IfdefState→Option IfdefState
  | _,[],st => some st
  | i,h::hs,st => do
    let st ← ifdefHunk oldLines opts define i h st
    ifdefHunks oldLines opts define (i+1) hs st

def applyIfdef (oldLines : List Bytes) (oldNoEOL : Bool) (hunks : List Hunk) (opts : ApplyOptions)
    (define : Bytes) : Option Result := do
  let st ← ifdefHunks oldLines opts define 0 (orient opts hunks) { noFinalNewline := oldNoEOL }
  let rest ← slice? oldLines st.cur oldLines.length
  pure ⟨st.out++rest,if st.cur<oldLines.length then oldNoEOL else st.noFinalNewline,
    st.reports,st.rejects⟩

end Coreutils.PatchApply
