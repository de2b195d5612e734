import Mathlib.Data.Fintype.Pi
import Coreutils.Budgets
import Coreutils.GoText

/-!
# The backtracking matcher

The nodes of `pkg/bre/regexp.go` for patterns with back-references, and the search `find`. A node
gives the states it can end in, in order of preference.
-/

namespace Coreutils.BreMatcher
open Budgets GoText

/-- What the package takes from others: `regexp.Compile` with `MatchString`, `strings.EqualFold` and
`locale.CUTF8RE2ClassContent`. -/
structure Host where
  compile : Bytes→Option (Bytes→Bool)
  equalFold : Bytes→Bytes→Bool
  classContent : Bytes→Option Bytes

/-- `btNode`. A repetition without a greatest count has the `max` -1 in the source. -/
inductive Node where
  | seq (nodes : List Node)
  | alt (nodes : List Node)
  | literal (lit : Bytes) (ignoreCase : Bool)
  | dot (dotAll cutf8 : Bool)
  | anchor (c : UInt8)
  | wordEdge (c : UInt8)
  | wordBoundary (c : UInt8)
  | builtinClass (c : UInt8)
  | cls (maxElementBytes : ℕ) (re : Bytes→Bool) (cutf8 : Bool)
  | group (num : Fin 10) (child : Node)
  | backref (num : Fin 10) (ignoreCase : Bool)
  | rep (child : Node) (min : ℕ) (max : Option ℕ)

/-- `btState`. An offset of a group that has not taken part is -1. -/
structure State where
  pos : ℕ
  caps : Fin 20→ℤ
  deriving DecidableEq

instance neZero_ten : NeZero 10 := ⟨by decide⟩

def opening (num : Fin 10) : Fin 20 := ⟨2*num,by omega⟩

def closing (num : Fin 10) : Fin 20 := ⟨2*num+1,by omega⟩

def State.moveTo (st : State) (pos : ℕ) : State := { st with pos }

def wordAt (s : Bytes) (i : ℕ) : Bool :=
  match s[i]? with
  | some c => isWordByte c
  | none => false

section
variable (host : Host) (s : Bytes)

def sameText (ignoreCase : Bool) (got lit : Bytes) : Bool :=
  if ignoreCase then host.equalFold got lit else got == lit

def matchText (ignoreCase : Bool) (lit : Bytes) (st : State) : List State :=
  if s.length<st.pos+lit.length then []
  else if sameText host ignoreCase (slice s st.pos (st.pos+lit.length)) lit then
    [st.moveTo (st.pos+lit.length)]
  else []

def matchDot (dotAll cutf8 : Bool) (st : State) : List State :=
  match s[st.pos]? with
  | none => []
  | some c =>
    if !dotAll && c == newline then []
    else if cutf8 then [st.moveTo (st.pos+(decodeRune (s.drop st.pos)).2)]
    else [st.moveTo (st.pos+1)]

def matchAnchor (c : UInt8) (st : State) : List State :=
  if c=94 then if st.pos=0 then [st] else []
  else if c=36 then if st.pos=s.length then [st] else []
  else []

def matchWordEdge (c : UInt8) (st : State) : List State :=
  let left := decide (0<st.pos) && wordAt s (st.pos-1)
  let right := wordAt s st.pos
  if c=60 then if right && !left then [st] else []
  else if c=62 then if left && !right then [st] else []
  else []

def matchWordBoundary (c : UInt8) (st : State) : List State :=
  let left := decide (0<st.pos) && wordAt s (st.pos-1)
  let right := wordAt s st.pos
  if (c == 98) == (left != right) then [st] else []

/-- The bytes of `builtinClassNode`: `w` 119, `W` 87, `s` 115 and `S` 83. -/
def inBuiltinClass (n c : UInt8) : Bool :=
  let ok :=
    if n=119 ∨ n=87 then isWordByte c
    else if n=115 ∨ n=83 then
      c == 32 || c == 9 || c == newline || c == carriageReturn || c == 12
    else false
  if n=87 ∨ n=83 then !ok else ok

def matchBuiltinClass (n : UInt8) (st : State) : List State :=
  match s[st.pos]? with
  | none => []
  | some c => if inBuiltinClass n c then [st.moveTo (st.pos+1)] else []

/-- The loop of `classNode.match`, with fuel first. The states are collected longest first. -/
def matchElements (maxElementBytes : ℕ) (re : Bytes→Bool) (st : State) :
    ℕ→ℕ→List State→Metered (List State)
  | 0,_,states => pure states
  | fuel+1,stop,states =>
    if stop<s.length ∧ stop-st.pos < maxElementBytes then
      let stop := stop+(decodeRune (s.drop stop)).2
      do
        tick
        unlessSpent (fun _ => []) (matchElements maxElementBytes re st fuel stop
          (if re (slice s st.pos stop) then st.moveTo stop::states else states))
    else pure states

def matchClass (maxElementBytes : ℕ) (re : Bytes→Bool) (cutf8 : Bool) (st : State) :
    Metered (List State) := do
  tick
  if s.length ≤ st.pos then return []
  else if 0 < maxElementBytes then
    matchElements s maxElementBytes re st s.length st.pos []
  else
    let size := if cutf8 then (decodeRune (s.drop st.pos)).2 else 1
    if re (slice s st.pos (st.pos+size)) then return [st.moveTo (st.pos+size)]
    else return []

def matchBackref (num : Fin 10) (ignoreCase : Bool) (st : State) : List State :=
  let start := st.caps (opening num)
  let stop := st.caps (closing num)
  if start<0 ∨ stop<0 then []
  else if stop=start then [st]
  else matchText host s ignoreCase (slice s start.toNat stop.toNat) st

def counted {α : Type} (a : α) : Metered α := do
  tick
  return a

def matchEach (f : State→Metered (List State)) : List State→Metered (Option (List State))
  | [] => pure (some [])
  | st::sts => do
    let outs ← f st
    unlessSpent (fun _ => none) (do return (← matchEach f sts).map (outs++·))

/-- The states one more turn of a repetition reaches. An unchanged state is not a turn. -/
def matchTurn (f : State→Metered (List State)) : List State→Metered (List State)
  | [] => pure []
  | st::sts => do
    let outs ← f st
    let next ← matchTurn f sts
    return outs.filter (·≠st)++next

/-- The levels of a repetition, last first: the states after each number of turns. -/
def matchLevels (f : State→Metered (List State)) :
    ℕ→List State→List (List State)→Metered (List (List State))
  | 0,last,below => pure (last::below)
  | turns+1,last,below => do
    let next ← matchTurn f last
    if next.isEmpty then return last::below
    else unlessSpent (fun _ => last::below) (matchLevels f turns next (last::below))

def matchRepeat (f : State→Metered (List State)) (min : ℕ) (max : Option ℕ) (st : State) :
    Metered (List State) := do
  let levels ← matchLevels f (max.getD (s.length-st.pos+1)) [st] []
  if levels.length-1 < min then return []
  else return (levels.take (levels.length-min)).flatten

def State.close (num : Fin 10) (start : ℕ) (st : State) : State :=
  { st with
    caps := Function.update (Function.update st.caps (opening num) start) (closing num) st.pos }

mutual
def Node.match : Node→State→Metered (List State)
  | .seq nodes,st => matchSeq nodes [st]
  | .alt nodes,st => matchAlt nodes st []
  | .literal lit ignoreCase,st => counted (matchText host s ignoreCase lit st)
  | .dot dotAll cutf8,st => counted (matchDot s dotAll cutf8 st)
  | .anchor c,st => counted (matchAnchor s c st)
  | .wordEdge c,st => counted (matchWordEdge s c st)
  | .wordBoundary c,st => counted (matchWordBoundary s c st)
  | .builtinClass c,st => counted (matchBuiltinClass s c st)
  | .cls maxElementBytes re cutf8,st => matchClass s maxElementBytes re cutf8 st
  | .group num child,st => do return (← child.match st).map (State.close num st.pos)
  | .backref num ignoreCase,st => counted (matchBackref host s num ignoreCase st)
  | .rep child min max,st => matchRepeat s child.match min max st

def matchSeq : List Node→List State→Metered (List State)
  | [],states => pure states
  | child::rest,states => do
    match ← matchEach child.match states with
    | none | some [] => return []
    | some (st::sts) => matchSeq rest (st::sts)

def matchAlt : List Node→State→List State→Metered (List State)
  | [],_,out => pure out
  | child::rest,st,out => do
    let outs ← child.match st
    unlessSpent (fun _ => []) (matchAlt rest st (out++outs))
end

end

structure Prog where
  root : Node
  groups : Fin 10
  anchored : Bool
  longest : Bool
  cutf8 : Bool

structure MatchLimitError where
  limit : ℕ
  deriving DecidableEq

def maxBacktrackSteps : ℕ := 200000

section
variable (host : Host) (p : Prog) (s : Bytes)

def Prog.pick : List State→Option State
  | [] => none
  | st::sts =>
    some (if p.longest then sts.foldl (fun best st => if best.pos<st.pos then st else best) st
      else st)

def Prog.matchAt (start : ℕ) : Metered (List State) := do
  let outs ← p.root.match host s { pos := start,caps := fun _ => -1 }
  unlessSpent (fun _ => []) (pure outs)

def Prog.indices (start : ℕ) (st : State) : List ℤ :=
  [(start : ℤ),(st.pos : ℤ)]++((List.ofFn st.caps).take (2*(p.groups+1))).drop 2

/-- The offset the search goes on at after an offset without a match, or with an empty one. -/
def Prog.advance (start : ℕ) : ℕ :=
  if p.cutf8 then start+(decodeRune (s.drop start)).2 else start+1

abbrev Found := List (List ℤ)×Option MatchLimitError

/-- The loop of `find`, the first argument being fuel. -/
def Prog.findFrom (n : ℤ) : ℕ→ℕ→List (List ℤ)→Metered (Option Found)
  | 0,_,_ => pure none
  | fuel+1,start,out =>
    if s.length<start then pure (some (out,none))
    else do
      let best := p.pick (← p.matchAt host s start)
      let next := fun out =>
        if p.anchored ∨ start=s.length then pure (some (out,none))
        else Prog.findFrom n fuel (p.advance s start) out
      unlessSpent (fun limit => some ([],some ⟨limit⟩))
        (match best with
        | none => next out
        | some st =>
          let out := out++[p.indices start st]
          if 0<n ∧ n≤out.length then pure (some (out,none))
          else if start<st.pos then Prog.findFrom n fuel st.pos out
          else next out)

def Prog.findWithin (limit : Option ℕ) (n : ℤ) : Option Found :=
  (run (p.findFrom host s n (s.length+2) 0 []) limit 0).1

def Prog.find (n : ℤ) : Option Found := p.findWithin host s (some maxBacktrackSteps) n

end

end Coreutils.BreMatcher
