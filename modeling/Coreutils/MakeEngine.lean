import Coreutils.GoText

/-!
# The update engine of make

`engine.update` brings one target up to date after its prerequisites, `engine.recipe` handles one
recipe line, and the goal loop of `run` calls `update` for each goal. The makefile is a list of
explicit rules, the file system the modification time of each target. What a command or a touch does
is up to the `Host`, which is told everything that has happened. The log is not part of the program:
it holds what a run does to the outside and the moments that its properties speak of.
-/

namespace Coreutils.MakeEngine
open Function GoText

/-- The parts of a recipe's expansion that depend on the target. -/
structure Automatic where
  target : Bytes
  member : Bytes
  first : Bytes
  stem : Bytes
  newer : List Bytes

structure Rule where
  deps : List Bytes := []
  recipes : List Bytes := []

/-- A makefile of explicit rules; the empty name is every target in `silent` and `ignore`. -/
structure Makefile where
  rules : List (Bytes×Rule)
  silent : Bytes→Bool := fun _ => false
  ignore : Bytes→Bool := fun _ => false
  suffixes : List Bytes := []
  expand : Bytes→Automatic→Bytes := fun line _ => line

structure Options where
  keep : Bool := false
  dry : Bool := false
  question : Bool := false
  touch : Bool := false
  silent : Bool := false
  ignore : Bool := false
  print : Bool := false

def archiveParts (target : Bytes) : Bytes×Bytes :=
  match target.idxOf? 40 with
  | some (i+1) =>
    if target.getLast?=some 41 then (target.take (i+1),(target.drop (i+2)).dropLast)
    else (target,[])
  | _ => (target,[])

def explicitStem (target : Bytes) (suffixes : List Bytes) : Bytes :=
  match suffixes.find? fun suffix => suffix.isSuffixOf target with
  | some suffix => target.take (target.length-suffix.length)
  | none => target

def unique (items : List Bytes) : List Bytes :=
  items.foldl (fun out item => if item∈out then out else out++[item]) []

def Makefile.rulesOf (m : Makefile) (target : Bytes) : List Rule :=
  (m.rules.filter fun r => r.1=target).map Prod.snd

def Makefile.deps (m : Makefile) (target : Bytes) : List Bytes :=
  unique ((m.rulesOf target).flatMap Rule.deps)

def Makefile.recipes (m : Makefile) (target : Bytes) : List Bytes :=
  (m.rulesOf target).foldl (fun recipes r => if r.recipes≠[] then r.recipes else recipes) []

inductive Failure where
  | cycle (target : Bytes)
  | noRule (target : Bytes)
  | notRemade (target : Bytes)
  | recipe (target err : Bytes)
  | touch (err : Bytes)
  | outOfDate
  deriving DecidableEq,Repr

def Failure.text : Failure→Bytes
  | cycle target => ascii "dependency cycle involving " ++ target
  | noRule target => ascii "don't know how to make " ++ target
  | notRemade target => ascii "target " ++ target++ascii " not remade because of errors"
  | recipe target err => ascii "target " ++ target++ascii ": " ++ err
  | touch err => err
  | outOfDate => ascii "target is out of date"

structure Moment where
  time : Bytes→Option ℕ
  done : Bytes→Bool
  made : Bytes→Bool

inductive Event where
  /-- `update` is called. -/
  | enter (target : Bytes)
  /-- `update` meets a target that it is already updating. -/
  | cycle (target : Bytes)
  /-- The prerequisites of a target are updated, without an error. -/
  | settle (target : Bytes) (now : Moment)
  /-- The lines of the recipe are about to be run. -/
  | recipe (target : Bytes)
  /-- `update` returns an error for a target it has worked on. -/
  | fail (target : Bytes) (e : Failure)
  /-- A line on the standard output. -/
  | out (line : Bytes)
  /-- A line on the standard error. -/
  | err (line : Bytes)
  /-- A command is started for a target. -/
  | start (target : Bytes) (args : List Bytes)
  | touch (target : Bytes)

/-- How a command ends, and the time its target then has if the command has set it. -/
structure Outcome where
  err : Option Bytes := none
  time : Option ℕ := none

/-- The commands and the file system; both see the log so far. -/
structure Host where
  shell : List Event→Bytes→List Bytes→Outcome
  touch : List Event→Bytes→Except Bytes ℕ

structure State where
  visiting : Bytes→Bool := fun _ => false
  done : Bytes→Bool := fun _ => false
  made : Bytes→Bool := fun _ => false
  failed : Bool := false
  action : Bool := false
  time : Bytes→Option ℕ
  log : List Event := []

def State.emit (s : State) (e : Event) : State := { s with log := s.log++[e] }

def State.now (s : State) : Moment := ⟨s.time,s.done,s.made⟩

def State.current (s : State) (target : Bytes) : State :=
  { s with done := update s.done target true }

def State.remade (s : State) (target : Bytes) : State :=
  { s with done := update s.done target true,made := update s.made target true }

def State.setTime (s : State) (target : Bytes) (time : ℕ) : State :=
  { s with time := update s.time target (some time) }

/-- A recipe line without its prefix, after the flags silent, ignore and force. -/
def prefixes (silent ignore force : Bool) : Bytes→Bool×Bool×Bool×Bytes
  | [] => (silent,ignore,force,[])
  | c::line =>
    if c=64 then prefixes true ignore force line
    else if c=45 then prefixes silent true force line
    else if c=43 then prefixes silent ignore true line
    else (silent,ignore,force,c::line)

def hasPlusPrefix : Bytes→Bool
  | [] => false
  | c::line => if c=64 ∨ c=45 then hasPlusPrefix line else c=43

section
variable (m : Makefile) (o : Options) (host : Host)

def shellArgs (ignore : Bool) (line : Bytes) : List Bytes :=
  if ignore then [ascii "-c",line] else [ascii "-e",ascii "-c",line]

def runCommand (target : Bytes) (args : List Bytes) (s : State) : Option Bytes×State :=
  let outcome := host.shell s.log target args
  let s := { s.emit (.start target args) with action := true }
  (outcome.err,match outcome.time with
    | some time => s.setTime target time
    | none => s)

def recipe (target line : Bytes) (special : Bool) (s : State) : Option Failure×State :=
  match prefixes (o.silent || m.silent [] || m.silent target)
      (o.ignore || m.ignore [] || m.ignore target) false line with
  | (silent,ignore,force,line) =>
    let s := if !silent || o.dry then s.emit (.out line) else s
    if (o.dry || special) && !force then (none,{ s with action := true })
    else
      match runCommand host target (shellArgs ignore line) s with
      | (some err,s) => (if ignore then none else some (.recipe target err),s)
      | (none,s) => (none,s)

def recipeLines (target : Bytes) (a : Automatic) (special : Bool) :
    List Bytes→State→Option Failure×State
  | [],s => (none,s)
  | line::lines,s =>
    match recipe m o host target (m.expand line a) special s with
    | (some e,s) => (some e,s)
    | (none,s) => recipeLines target a special lines s

def Moment.newerThan (now : Moment) (target dep : Bytes) : Bool :=
  match now.time dep,now.time target with
  | some time,some old => old<time
  | some _,none => true
  | none,_ => false

/-- The loop that decides whether the target must be remade, and which prerequisites are newer. -/
def examine (now : Moment) (target : Bytes) : List Bytes→Bool→List Bytes→Bool×List Bytes
  | [],needed,newer => (needed,newer)
  | dep::deps,needed,newer =>
    let (needed,newer) :=
      if now.newerThan target dep then (true,newer++[dep]) else (needed,newer)
    let (needed,newer) :=
      if now.made dep then (true,if dep∈newer then newer else newer++[dep])
      else (needed,newer)
    examine now target deps needed newer

def automatic (target : Bytes) (newer : List Bytes) : Automatic :=
  { target := (archiveParts target).1
    member := (archiveParts target).2
    first := (m.deps target).headD []
    stem := explicitStem target m.suffixes
    newer := newer }

def touchFile (target : Bytes) (s : State) : Option Failure×State :=
  match host.touch s.log target with
  | .ok time => (none,(s.emit (.touch target)).setTime target time)
  | .error err => (some (.touch err),s.emit (.touch target))

/-- `update` once a target must be remade. -/
def remake (target : Bytes) (newer : List Bytes) (s : State) : Except Failure Bool×State :=
  let a := automatic m target newer
  let recipes := m.recipes target
  if o.question then
    match recipeLines m o host target a true (recipes.filter hasPlusPrefix) s with
    | (some e,s) => (.error e,s)
    | (none,s) => (.error .outOfDate,s)
  else if o.touch then
    match recipeLines m o host target a true (recipes.filter hasPlusPrefix) s with
    | (some e,s) => (.error e,s)
    | (none,s) =>
      if recipes=[] then (.ok true,s.remade target)
      else
        match touchFile host target s with
        | (some e,s) => (.error e,s)
        | (none,s) =>
          let s := { s.remade target with action := true }
          (.ok true,if !o.silent && !m.silent [] && !m.silent target then
            s.emit (.out (ascii "touch " ++ target)) else s)
  else if recipes=[] then (.ok true,s.remade target)
  else
    match recipeLines m o host target a false recipes (s.emit (.recipe target)) with
    | (some e,s) => (.error e,s)
    | (none,s) => (.ok true,{ s.remade target with action := true })

def decideTarget (target : Bytes) (depChanged : Bool) (s : State) : Except Failure Bool×State :=
  let missing := (s.time target).isNone
  let s := s.emit (.settle target s.now)
  match examine s.now target (m.deps target) missing [] with
  | (needed,newer) =>
    if needed || depChanged && missing then remake m o host target newer s
    else (.ok false,s.current target)

/-- The prerequisites one after another; whether one was remade, and whether one failed. -/
def updateDeps (update : Bytes→State→Option (Except Failure Bool×State)) :
    List Bytes→Bool→Bool→State→Option (Except Failure (Bool×Bool)×State)
  | [],changed,failed,s => some (.ok (changed,failed),s)
  | dep::deps,changed,failed,s =>
    match update dep s with
    | none => none
    | some (.ok c,s) => updateDeps update deps (changed || c) failed s
    | some (.error e,s) =>
      if o.keep then
        updateDeps update deps changed true
          { s.emit (.err (ascii "make: " ++ e.text)) with failed := true }
      else some (.error e,s)

/-- `update` between the marks that the target is being visited. -/
def updateBody (update : Bytes→State→Option (Except Failure Bool×State)) (target : Bytes)
    (s : State) : Option (Except Failure Bool×State) :=
  if m.rulesOf target=[] then
    if (s.time target).isSome then some (.ok false,s.current target)
    else some (.error (.noRule target),s)
  else
    match updateDeps o update (m.deps target) false false s with
    | none => none
    | some (.error e,s) => some (.error e,s)
    | some (.ok (changed,failed),s) =>
      if failed then some (.error (.notRemade target),s)
      else some (decideTarget m o host target changed s)

def State.visit (s : State) (target : Bytes) : State :=
  { s with visiting := update s.visiting target true }

def State.leave (s : State) (target : Bytes) (r : Except Failure Bool) : State :=
  let s := { s with visiting := update s.visiting target false }
  match r with
  | .ok _ => s
  | .error e => s.emit (.fail target e)

/-- `engine.update`; nothing if the fuel runs out. -/
def update : ℕ→Bytes→State→Option (Except Failure Bool×State)
  | 0,_,_ => none
  | fuel+1,target,s =>
    let s := s.emit (.enter target)
    if s.done target then some (.ok (s.made target),s)
    else if s.visiting target then some (.error (.cycle target),s.emit (.cycle target))
    else
      match updateBody m o host (update fuel) target (s.visit target) with
      | none => none
      | some (r,s) => some (r,s.leave target r)

/-- The goal loop: whether it was left early, whether a goal was out of date, and the state. -/
def updateGoals (fuel : ℕ) : List Bytes→Bool→State→Option (Bool×Bool×State)
  | [],outdated,s => some (false,outdated,s)
  | goal::goals,outdated,s =>
    match update m o host fuel goal s with
    | none => none
    | some (.ok _,s) => updateGoals fuel goals outdated s
    | some (.error .outOfDate,s) => updateGoals fuel goals true s
    | some (.error e,s) =>
      let s := { s.emit (.err (ascii "make: " ++ e.text)) with failed := true }
      if o.keep then updateGoals fuel goals outdated s else some (true,outdated,s)

def Makefile.fuel (m : Makefile) : ℕ := m.rules.length+1

/-- The goals of a run from given file times; the state at the end of the goal loop. -/
def makeGoals (time : Bytes→Option ℕ) (goals : List Bytes) : Option (Bool×Bool×State) :=
  updateGoals m o host m.fuel goals false { time := time }

def run (time : Bytes→Option ℕ) (goals : List Bytes) : Option (ℕ×State) :=
  match makeGoals m o host time goals with
  | none => none
  | some (stopped,outdated,s) =>
    if stopped || s.failed then some (2,s)
    else if o.question && outdated then some (1,s)
    else if !s.action && !o.question && !o.print then
      some (0,s.emit (.out (ascii "make: nothing to be done")))
    else some (0,s)

end

end Coreutils.MakeEngine
