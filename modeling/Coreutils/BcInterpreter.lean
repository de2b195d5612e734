import Coreutils.BcNumber
import Coreutils.DynamicBinding

/-!
# The bc interpreter

`cmds/internal/bc/interpreter.go` on syntax trees. Maps are functions to `Option`, an error keeps
its state, and `none` is a run that outlasts its fuel or panics.
-/

namespace Coreutils.BcInterpreter
open Function GoText BcNumber DynamicBinding

abbrev Name := Bytes

/-- A Go `map[int]Number`. -/
abbrev Elements := ℤ→Option Number

inductive ArithOp where
  | add | sub | mul | div | mod | pow
  deriving DecidableEq,Repr

inductive RelOp where
  | eq | ne | lt | le | gt | ge
  deriving DecidableEq,Repr

/-- The operators of `binaryExpr`; `assign (some op)` is `op=`. -/
inductive BinaryOp where
  | assign (op : Option ArithOp)
  | arith (op : ArithOp)
  | rel (op : RelOp)
  | and
  | or
  deriving DecidableEq,Repr

inductive UnaryOp where
  | minus | not
  deriving DecidableEq,Repr

inductive Expr where
  | literalExpr (s : Bytes)
  | numberExpr (n : Number)
  | parenExpr (e : Expr)
  | variableExpr (name : Name) (index : Option Expr)
  | wholeArrayExpr (name : Name)
  | unaryExpr (op : UnaryOp) (e : Expr)
  | binaryExpr (op : BinaryOp) (l r : Expr)
  | incExpr (e : Expr) (delta : ℤ) (post : Bool)
  | callExpr (name : Name) (args : List Expr)

/-- `flow`; nothing builds the fourth flow, `flowQuit`, since `quit` ends the parse. -/
inductive Flow where
  | none | brk | ret
  deriving DecidableEq,Repr

structure Param where
  name : Name
  array : Bool
  deriving DecidableEq,Repr

inductive Stmt where
  | exprStmt (e : Expr) (print : Bool)
  | stringStmt (s : Bytes)
  | blockStmt (ss : List Stmt)
  | flowStmt (f : Flow)
  | returnStmt (e : Expr)
  | defineStmt (name : Name) (params autos : List Param) (body : List Stmt)
  | ifStmt (c : Expr) (yes no : List Stmt)
  | whileStmt (c : Expr) (body : List Stmt)
  | forStmt (init cond post : Option Expr) (body : List Stmt)

structure Function where
  params : List Param
  autos : List Param
  body : List Stmt

inductive BcError where
  | number (e : NumberError)
  | wholeArray (name : Name)
  | arrayIndex
  | outside (min max : ℤ)
  | assignment
  | increment
  | arity (name : Name)
  | undefined (name : Name)
  | expects (name : Name) (count : ℕ)
  | arrayParameter (name : Name)
  | write
  deriving DecidableEq,Repr

/-- `Interpreter`; the registers, the bindings and what was written. -/
structure State where
  scale : ℤ := 0
  ibase : ℤ := 10
  obase : ℤ := 10
  vars : Name→Option Number := fun _ => none
  arrays : Name→Option Elements := fun _ => none
  funcs : Name→Option Function := fun _ => none
  out : List Bytes := []

/-- What the interpreter is given: the mathematical library, and whether the next write fails. -/
structure Env where
  mathlib : Bool := false
  mathCall : ℤ→Name→Number→Except NumberError Number := fun _ _ v => .ok v
  besselCall : ℤ→Number→Number→Except NumberError Number := fun _ _ v => .ok v
  writeFails : List Bytes→Bool := fun _ => false

abbrev Outcome (α : Type) := Option (Except BcError α×State)

/-- Go on with the value of an evaluation, or return its error. -/
def andThen {α β : Type} (o : Outcome α) (k : α→State→Outcome β) : Outcome β :=
  match o with
  | none => none
  | some (.error e,st) => some (.error e,st)
  | some (.ok v,st) => k v st

def lift {α : Type} (r : Except NumberError α) (st : State) : Outcome α :=
  some (r.mapError .number,st)

def arrayIndex (v : Number) (st : State) : Outcome ℤ :=
  let n := if v.scale≠0 then v.n.tdiv (pow10 v.scale) else v.n
  if !isInt64 n || n<0 || n>maxDim-1 then some (.error .arrayIndex,st) else some (.ok n,st)

def truncatedInt (v : Number) (low high : ℤ) (st : State) : Outcome ℤ :=
  let num := if v.scale≠0 then v.n.tdiv (pow10 v.scale) else v.n
  if !isInt64 num || num<low || num>high then some (.error (.outside low high),st)
  else some (.ok num,st)

def readScalar (name : Name) (st : State) : Number :=
  if name=ascii "scale" then fromInt64 st.scale
  else if name=ascii "ibase" then fromInt64 st.ibase
  else if name=ascii "obase" then fromInt64 st.obase
  else (st.vars name).getD zero

def readElement (name : Name) (i : ℤ) (st : State) : Number :=
  (((st.arrays name).getD fun _ => none) i).getD zero

def writeScalar (name : Name) (v : Number) (st : State) : Outcome Unit :=
  if name=ascii "scale" then
    andThen (truncatedInt v 0 maxScale st) fun n st => some (.ok (),{ st with scale := n })
  else if name=ascii "ibase" then
    andThen (truncatedInt v 2 16 st) fun n st => some (.ok (),{ st with ibase := n })
  else if name=ascii "obase" then
    andThen (truncatedInt v 0 maxBase st) fun n st =>
      some (.ok (),{ st with obase := if n<2 then 2 else n })
  else some (.ok (),{ st with vars := update st.vars name (some v) })

def writeElement (name : Name) (i : ℤ) (v : Number) (st : State) : State :=
  { st with
    arrays := update st.arrays name
      (some (update ((st.arrays name).getD fun _ => none) i (some v))) }

def arith (op : ArithOp) (a c : Number) (st : State) : Outcome Number :=
  match op with
  | .add => some (.ok (a.add c),st)
  | .sub => some (.ok (a.sub c),st)
  | .mul => some (.ok (a.mul c st.scale),st)
  | .div => lift (a.div c st.scale) st
  | .mod => lift (a.mod c st.scale) st
  | .pow => (a.pow c st.scale).bind fun r => lift r st

def boolNum (v : Bool) : Number := if v then fromInt64 1 else zero

def relation (op : RelOp) (a c : Number) : Bool :=
  match op with
  | .eq => a.cmp c == 0
  | .ne => a.cmp c != 0
  | .lt => a.cmp c<0
  | .le => a.cmp c≤0
  | .gt => a.cmp c>0
  | .ge => a.cmp c≥0

def singleDigitLiteral : Expr→Option Bytes
  | .literalExpr s => if s.length=1 ∧ s ⊆ ascii "0123456789ABCDEF" then some s else none
  | .parenExpr e => singleDigitLiteral e
  | _ => none

/-- An assignment to a base register reads a single digit in base sixteen. -/
def registerDigit (op : Option ArithOp) (name : Name) (index : Option Expr) (r : Expr) :
    Option Bytes :=
  if op=none ∧ index.isNone ∧ (name=ascii "ibase" ∨ name=ascii "obase") then
    singleDigitLiteral r
  else none

/-- An evaluated argument, or the value an automatic variable starts with. -/
inductive Arg where
  | scalar (v : Number)
  | array (a : Elements)

/-- The copy of an array that is passed for a parameter `a[]`. -/
def passArray (p : Param) (arg : Expr) (st : State) : Except BcError Arg :=
  match arg with
  | .wholeArrayExpr name => .ok (.array ((st.arrays name).getD fun _ => none))
  | _ => .error (.arrayParameter p.name)

def autoArg (p : Param) : Arg := if p.array then .array fun _ => none else .scalar zero

/-- `savedV` and `hadV` with the scalars, `savedA` and `hadA` with the arrays. -/
structure Locals where
  vars : Frame Name Number
  arrays : Frame Name Elements

/-- One turn of the loops that save a name and bind it. -/
def Locals.bind (l : Locals) (p : Param×Arg) : Locals :=
  match p.2 with
  | .scalar v => { l with vars := l.vars.bind (p.1.name,v) }
  | .array a => { l with arrays := l.arrays.bind (p.1.name,a) }

/-- The parameters with their arguments, then the automatic variables. -/
def bindings (f : Function) (args : List Arg) : List (Param×Arg) :=
  f.params.zip args++f.autos.map fun p => (p,autoArg p)

def bindLocals (f : Function) (args : List Arg) (st : State) : Locals :=
  (bindings f args).foldl Locals.bind ⟨Frame.enter st.vars,Frame.enter st.arrays⟩

def enterCall (l : Locals) (st : State) : State :=
  { st with vars := l.vars.env,arrays := l.arrays.env }

def leaveCall (l : Locals) (st : State) : State :=
  { st with vars := restore l.vars.saved st.vars,arrays := restore l.arrays.saved st.arrays }

/-- The functions of the mathematical library that have one argument. -/
def mathName (name : Name) : Bool := name.length == 1 && decide (name ⊆ ascii "scael")

inductive Callee where
  | math | bessel | length | scale | sqrt
  | user (f : Function)
  | undefined

def callee (env : Env) (st : State) (name : Name) : Callee :=
  if env.mathlib && (st.funcs name).isNone && mathName name then .math
  else if env.mathlib && (st.funcs name).isNone && name == ascii "j" then .bessel
  else if name=ascii "length" then .length
  else if name=ascii "scale" then .scale
  else if name=ascii "sqrt" then .sqrt
  else
    match st.funcs name with
    | some f => .user f
    | none => .undefined

def write (env : Env) (s : Bytes) (st : State) : Outcome Unit :=
  if env.writeFails st.out then some (.error .write,st)
  else some (.ok (),{ st with out := st.out++[s] })

mutual

def eval (env : Env) : ℕ→Expr→State→Outcome Number
  | 0,_,_ => none
  | fuel+1,e,st =>
    match e with
    | .literalExpr s => lift (parseNumber s st.ibase) st
    | .numberExpr n => some (.ok n,st)
    | .parenExpr e => eval env fuel e st
    | .wholeArrayExpr name => some (.error (.wholeArray name),st)
    | .variableExpr name none => some (.ok (readScalar name st),st)
    | .variableExpr name (some index) =>
      andThen (eval env fuel index st) fun v st =>
      andThen (arrayIndex v st) fun i st => some (.ok (readElement name i st),st)
    | .unaryExpr .minus e => andThen (eval env fuel e st) fun v st => some (.ok v.neg,st)
    | .unaryExpr .not e =>
      andThen (eval env fuel e st) fun v st => some (.ok (boolNum (v.sign == 0)),st)
    | .binaryExpr (.assign op) (.variableExpr name index) r =>
      andThen
        (match registerDigit op name index r with
          | some s => lift (parseNumber s 16) st
          | none => eval env fuel r st) fun rv st =>
      andThen
        (match op with
          | none => some (.ok rv,st)
          | some op =>
            andThen (eval env fuel (.variableExpr name index) st) fun old st =>
              arith op old rv st) fun rv st =>
      andThen (assign env fuel name index rv st) fun _ st => some (.ok rv,st)
    | .binaryExpr (.assign _) _ _ => some (.error .assignment,st)
    | .binaryExpr (.arith op) l r =>
      andThen (eval env fuel l st) fun a st =>
      andThen (eval env fuel r st) fun c st => arith op a c st
    | .binaryExpr (.rel op) l r =>
      andThen (eval env fuel l st) fun a st =>
      andThen (eval env fuel r st) fun c st => some (.ok (boolNum (relation op a c)),st)
    | .binaryExpr .and l r =>
      andThen (eval env fuel l st) fun a st =>
        if a.sign=0 then some (.ok zero,st)
        else andThen (eval env fuel r st) fun c st => some (.ok (boolNum (c.sign != 0)),st)
    | .binaryExpr .or l r =>
      andThen (eval env fuel l st) fun a st =>
        if a.sign≠0 then some (.ok (fromInt64 1),st)
        else andThen (eval env fuel r st) fun c st => some (.ok (boolNum (c.sign != 0)),st)
    | .incExpr (.variableExpr name index) delta post =>
      andThen (eval env fuel (.variableExpr name index) st) fun old st =>
      andThen (assign env fuel name index (old.add (fromInt64 delta)) st) fun _ st =>
        some (.ok (if post then old else old.add (fromInt64 delta)),st)
    | .incExpr _ _ _ => some (.error .increment,st)
    | .callExpr name args =>
      match callee env st name with
      | .math =>
        andThen (evalOnly env fuel name args st) fun v st => lift (env.mathCall st.scale name v) st
      | .bessel =>
        match args with
        | [order,arg] =>
          andThen (eval env fuel order st) fun order st =>
          andThen (eval env fuel arg st) fun arg st => lift (env.besselCall st.scale order arg) st
        | _ => some (.error (.arity name),st)
      | .length =>
        andThen (evalOnly env fuel name args st) fun v st => some (.ok (fromInt64 v.length),st)
      | .scale =>
        andThen (evalOnly env fuel name args st) fun v st => some (.ok (fromInt64 v.scale),st)
      | .sqrt => andThen (evalOnly env fuel name args st) fun v st => lift (v.sqrt st.scale) st
      | .undefined => some (.error (.undefined name),st)
      | .user f =>
        if args.length≠f.params.length then
          some (.error (.expects name f.params.length),st)
        else andThen (evalArgs env fuel f.params args st) fun vals st => callUser env fuel f vals st

def evalOnly (env : Env) : ℕ→Name→List Expr→State→Outcome Number
  | 0,_,_,_ => none
  | fuel+1,name,args,st =>
    match args with
    | [arg] => eval env fuel arg st
    | _ => some (.error (.arity name),st)

def assign (env : Env) : ℕ→Name→Option Expr→Number→State→Outcome Unit
  | 0,_,_,_,_ => none
  | fuel+1,name,index,v,st =>
    match index with
    | none => writeScalar name v st
    | some index =>
      andThen (eval env fuel index st) fun i st =>
      andThen (arrayIndex i st) fun i st => some (.ok (),writeElement name i v st)

/-- The arguments of a call, all of them before any parameter is bound. -/
def evalArgs (env : Env) : ℕ→List Param→List Expr→State→Outcome (List Arg)
  | 0,_,_,_ => none
  | fuel+1,p::ps,arg::args,st =>
    if p.array then
      match passArray p arg st with
      | .error e => some (.error e,st)
      | .ok v => andThen (evalArgs env fuel ps args st) fun vs st => some (.ok (v::vs),st)
    else
      andThen (eval env fuel arg st) fun v st =>
      andThen (evalArgs env fuel ps args st) fun vs st => some (.ok (.scalar v::vs),st)
  | _+1,_,_,st => some (.ok [],st)

/-- The rest of a call: bind, run the body, restore. -/
def callUser (env : Env) : ℕ→Function→List Arg→State→Outcome Number
  | 0,_,_,_ => none
  | fuel+1,f,vals,st =>
    let locals := bindLocals f vals st
    match exec env fuel f.body (enterCall locals st) with
    | none => none
    | some (.error e,st) => some (.error e,leaveCall locals st)
    | some (.ok r,st) =>
      some (.ok (if r.1=.ret then r.2 else zero),leaveCall locals st)

def run (env : Env) : ℕ→Stmt→State→Outcome (Flow×Number)
  | 0,_,_ => none
  | fuel+1,s,st =>
    match s with
    | .exprStmt e print =>
      andThen (eval env fuel e st) fun v st =>
        if print then
          (v.wrappedStringBase st.obase).bind fun text =>
            andThen (write env (text++[newline]) st) fun _ st => some (.ok (.none,zero),st)
        else some (.ok (.none,zero),st)
    | .stringStmt s => andThen (write env s st) fun _ st => some (.ok (.none,zero),st)
    | .blockStmt ss => exec env fuel ss st
    | .flowStmt f => some (.ok (f,zero),st)
    | .returnStmt e => andThen (eval env fuel e st) fun v st => some (.ok (.ret,v),st)
    | .defineStmt name params autos body =>
      some (.ok (.none,zero),{ st with funcs := update st.funcs name (some ⟨params,autos,body⟩) })
    | .ifStmt c yes no =>
      andThen (eval env fuel c st) fun v st =>
        if v.sign≠0 then exec env fuel yes st else exec env fuel no st
    | .whileStmt c body => loop env fuel (some c) none body st
    | .forStmt init cond post body =>
      match init with
      | none => loop env fuel cond post body st
      | some init =>
        andThen (eval env fuel init st) fun _ st => loop env fuel cond post body st

def loop (env : Env) : ℕ→Option Expr→Option Expr→List Stmt→State→Outcome (Flow×Number)
  | 0,_,_,_,_ => none
  | fuel+1,cond,post,body,st =>
    andThen
      (match cond with
        | none => some (.ok (fromInt64 1),st)
        | some cond => eval env fuel cond st) fun v st =>
      if v.sign=0 then some (.ok (.none,zero),st)
      else
        andThen (exec env fuel body st) fun r st =>
          match r.1 with
          | .brk => some (.ok (.none,zero),st)
          | .ret => some (.ok r,st)
          | .none =>
            andThen
              (match post with
                | none => some (.ok zero,st)
                | some post => eval env fuel post st) fun _ st =>
              loop env fuel cond post body st

def exec (env : Env) : ℕ→List Stmt→State→Outcome (Flow×Number)
  | 0,_,_ => none
  | _+1,[],st => some (.ok (.none,zero),st)
  | fuel+1,s::ss,st =>
    andThen (run env fuel s st) fun r st =>
      if r.1≠.none then some (.ok r,st) else exec env fuel ss st

end

end Coreutils.BcInterpreter
