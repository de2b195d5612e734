import Coreutils.BcInterpreter

/-!
# The registers of bc over whole runs

Whatever a program does, also when it fails, `scale`, `ibase` and `obase` keep to their ranges, and
what was written stays written.
-/

namespace Coreutils.BcRegisters
open GoText BcNumber BcInterpreter

/-- The registers are in range, and the output goes on from `out`. -/
def Sound (out : List Bytes) (st : State) : Prop :=
  (0 ≤ st.scale ∧ st.scale ≤ maxScale) ∧ (2 ≤ st.ibase ∧ st.ibase≤16) ∧
    (2 ≤ st.obase ∧ st.obase ≤ maxBase) ∧ out <+: st.out

variable {α β : Type} {out : List Bytes} {st : State}

def Ends (out : List Bytes) (o : Outcome α) : Prop := ∀r st,o=some (r,st)→Sound out st

theorem ends_none : Ends out (none : Outcome α) := by rintro _ _ ⟨⟩

theorem ends_some {r : Except BcError α} (h : Sound out st) : Ends out (some (r,st)) := by
  rintro _ _ ⟨⟩
  exact h

theorem ends_andThen {o : Outcome α} {k : α→State→Outcome β} (h : Ends out o)
    (hk : ∀v st,Sound out st→Ends out (k v st)) : Ends out (andThen o k) := by
  unfold andThen
  split
  · exact ends_none
  · exact ends_some (h _ _ rfl)
  · exact hk _ _ (h _ _ rfl)

theorem ends_map {o : Outcome α} {f : α→State→Except BcError β} (h : Ends out o) :
    Ends out (andThen o fun v st => some (f v st,st)) :=
  ends_andThen h fun _ _ h => ends_some h

theorem ends_bind {o : Option α} {k : α→Outcome β} (hk : ∀v,Ends out (k v)) :
    Ends out (o.bind k) := by
  cases o with
  | none => exact ends_none
  | some v => exact hk v

def Keeps (f : State→Outcome α) : Prop := ∀{out st},Sound out st→Ends out (f st)

theorem keeps_writeScalar (name : Name) (v : Number) : Keeps (writeScalar name v) := by
  intro out st h r st' hr
  simp only [writeScalar,truncatedInt,andThen] at hr
  generalize (if v.scale≠0 then v.n.tdiv (pow10 v.scale) else v.n)=n at hr
  grind [Sound,maxBase]

theorem keeps_arrayIndex (v : Number) : Keeps (arrayIndex v) := by
  intro out st h
  simp only [arrayIndex]
  split_ifs <;> exact ends_some h

theorem keeps_arith (op : ArithOp) (a c : Number) : Keeps (arith op a c) := by
  intro out st h
  cases op with
  | pow => exact ends_bind fun r => ends_some h
  | _ => exact ends_some h

theorem keeps_write (env : Env) (s : Bytes) : Keeps (write env s) := by
  intro out st h
  unfold write
  split
  · exact ends_some h
  · exact ends_some ⟨h.1,h.2.1,h.2.2.1,h.2.2.2.trans (List.prefix_append ..)⟩

structure Runs (env : Env) (fuel : ℕ) : Prop where
  eval : ∀e,Keeps (eval env fuel e)
  evalOnly : ∀name args,Keeps (evalOnly env fuel name args)
  assign : ∀name i v,Keeps (assign env fuel name i v)
  evalArgs : ∀ps args,Keeps (evalArgs env fuel ps args)
  callUser : ∀f vals,Keeps (callUser env fuel f vals)
  run : ∀s,Keeps (run env fuel s)
  loop : ∀cond post body,Keeps (loop env fuel cond post body)
  exec : ∀ss,Keeps (exec env fuel ss)

section
variable {env : Env} {fuel : ℕ} (ih : Runs env fuel) (name : Name) (index : Option Expr)
  (args : List Expr) (e : Expr)
include ih

theorem keeps_variableExpr : Keeps (eval env (fuel+1) (.variableExpr name index)) := by
  intro out st h
  cases index with
  | none => exact ends_some h
  | some index =>
    exact ends_andThen (ih.eval index h) fun v _ h => ends_map (keeps_arrayIndex v h)

/-- The value, then the value of the operator, then the assignment. -/
theorem keeps_assignExpr (op : Option ArithOp) (r : Expr) :
    Keeps (eval env (fuel+1) (.binaryExpr (.assign op) (.variableExpr name index) r)) := by
  intro out st h
  refine ends_andThen ?_ fun v st h => ends_andThen ?_ fun v st h =>
    ends_map (ih.assign name index v h)
  · split
    · exact ends_some h
    · exact ih.eval r h
  cases op with
  | none => exact ends_some h
  | some op =>
    exact ends_andThen (ih.eval (.variableExpr name index) h) fun old _ h =>
      keeps_arith op old v h

theorem keeps_binaryExpr (op : BinaryOp) (l r : Expr) :
    Keeps (eval env (fuel+1) (.binaryExpr op l r)) := by
  intro out st h
  cases op with
  | assign op =>
    cases l with
    | variableExpr name index => exact keeps_assignExpr ih name index op r h
    | _ => exact ends_some h
  | arith op =>
    exact ends_andThen (ih.eval l h) fun a _ h =>
      ends_andThen (ih.eval r h) fun c _ h => keeps_arith op a c h
  | rel op =>
    exact ends_andThen (ih.eval l h) fun _ _ h => ends_map (ih.eval r h)
  | and | or =>
    refine ends_andThen (ih.eval l h) fun a st h => ?_
    split
    · exact ends_some h
    · exact ends_map (ih.eval r h)

theorem keeps_incExpr (delta : ℤ) (post : Bool) :
    Keeps (eval env (fuel+1) (.incExpr e delta post)) := by
  intro out st h
  cases e with
  | variableExpr name index =>
    exact ends_andThen (ih.eval (.variableExpr name index) h) fun _ _ h =>
      ends_map (ih.assign name index _ h)
  | _ => exact ends_some h

theorem keeps_callExpr : Keeps (eval env (fuel+1) (.callExpr name args)) := by
  intro out st h
  rw [eval.eq_def]
  dsimp only
  split
  case h_2 =>
    split
    · exact ends_andThen (ih.eval _ h) fun _ _ h => ends_map (ih.eval _ h)
    · exact ends_some h
  case h_6 => exact ends_some h
  case h_7 f _ =>
    split
    · exact ends_some h
    · exact ends_andThen (ih.evalArgs f.params args h) fun vals _ h => ih.callUser f vals h
  all_goals exact ends_map (ih.evalOnly name args h)

theorem keeps_eval : Keeps (eval env (fuel+1) e) := by
  intro out st h
  cases e with
  | literalExpr | numberExpr | wholeArrayExpr => exact ends_some h
  | parenExpr e => exact ih.eval e h
  | variableExpr name index => exact keeps_variableExpr ih name index h
  | unaryExpr op e => cases op <;> exact ends_map (ih.eval e h)
  | binaryExpr op l r => exact keeps_binaryExpr ih op l r h
  | incExpr e delta post => exact keeps_incExpr ih e delta post h
  | callExpr name args => exact keeps_callExpr ih name args h

theorem keeps_evalOnly : Keeps (evalOnly env (fuel+1) name args) := by
  intro out st h
  match args with
  | [arg] => exact ih.eval arg h
  | [] | _::_::_ => exact ends_some h

theorem keeps_assign (v : Number) : Keeps (assign env (fuel+1) name index v) := by
  intro out st h
  cases index with
  | none => exact keeps_writeScalar name v h
  | some index =>
    exact ends_andThen (ih.eval index h) fun i _ h =>
      ends_andThen (keeps_arrayIndex i h) fun _ _ h => ends_some h

theorem keeps_evalArgs (ps : List Param) : Keeps (evalArgs env (fuel+1) ps args) := by
  intro out st h
  match ps,args with
  | [],_ | _::_,[] => exact ends_some h
  | p::ps,arg::args =>
    rw [evalArgs]
    split
    · split
      · exact ends_some h
      · exact ends_map (ih.evalArgs ps args h)
    · exact ends_andThen (ih.eval arg h) fun _ _ h => ends_map (ih.evalArgs ps args h)

/-- Binding and restoring the locals leaves the registers and the output alone. -/
theorem keeps_callUser (f : Function) (vals : List Arg) : Keeps (callUser env (fuel+1) f vals) := by
  intro out st h
  have hbody := ih.exec f.body (show Sound out (enterCall (bindLocals f vals st) st) from h)
  rw [callUser]
  split
  · exact ends_none
  all_goals
    have := hbody _ _ ‹_›
    exact ends_some this

theorem keeps_exprStmt (print : Bool) : Keeps (run env (fuel+1) (.exprStmt e print)) := by
  intro out st h
  refine ends_andThen (ih.eval e h) fun v st h => ?_
  split
  · exact ends_bind fun text => ends_map (keeps_write env (text++[newline]) h)
  · exact ends_some h

theorem keeps_run (s : Stmt) : Keeps (run env (fuel+1) s) := by
  intro out st h
  cases s with
  | exprStmt e print => exact keeps_exprStmt ih e print h
  | stringStmt s => exact ends_map (keeps_write env s h)
  | blockStmt ss => exact ih.exec ss h
  | flowStmt f => exact ends_some h
  | returnStmt e => exact ends_map (ih.eval e h)
  | defineStmt name params autos body => exact ends_some h
  | ifStmt c yes no =>
    refine ends_andThen (ih.eval c h) fun v st h => ?_
    split
    · exact ih.exec yes h
    · exact ih.exec no h
  | whileStmt c body => exact ih.loop (some c) none body h
  | forStmt init cond post body =>
    cases init with
    | none => exact ih.loop cond post body h
    | some init => exact ends_andThen (ih.eval init h) fun _ _ h => ih.loop cond post body h

theorem keeps_loop (cond post : Option Expr) (body : List Stmt) :
    Keeps (loop env (fuel+1) cond post body) := by
  intro out st h
  refine ends_andThen ?_ fun v st h => ?_
  · cases cond with
    | none => exact ends_some h
    | some e => exact ih.eval e h
  split
  · exact ends_some h
  refine ends_andThen (ih.exec body h) fun r st h => ?_
  split
  · exact ends_some h
  · exact ends_some h
  refine ends_andThen ?_ fun _ _ h => ih.loop cond post body h
  cases post with
  | none => exact ends_some h
  | some e => exact ih.eval e h

theorem keeps_exec (ss : List Stmt) : Keeps (exec env (fuel+1) ss) := by
  intro out st h
  cases ss with
  | nil => exact ends_some h
  | cons s ss =>
    refine ends_andThen (ih.run s h) fun r st h => ?_
    split
    · exact ends_some h
    · exact ih.exec ss h

end

theorem runs (env : Env) (fuel : ℕ) : Runs env fuel := by
  induction fuel with
  | zero => constructor <;> intros <;> rintro _ _ _ _ _ ⟨⟩
  | succ fuel ih =>
    exact ⟨keeps_eval ih,keeps_evalOnly ih,keeps_assign ih,fun ps args => keeps_evalArgs ih args ps,
      keeps_callUser ih,keeps_run ih,keeps_loop ih,keeps_exec ih⟩

/-- A run of a program keeps the registers in range, be it to an error, and what was written. -/
theorem exec_registers {env : Env} {fuel : ℕ} {ss : List Stmt} {st st' : State}
    {r : Except BcError (Flow×Number)} (h₀ : Sound [] st)
    (h : exec env fuel ss st=some (r,st')) : Sound st.out st' :=
  (runs env fuel).exec ss ⟨h₀.1,h₀.2.1,h₀.2.2.1,List.prefix_rfl⟩ r st' h

def zeroObase : Stmt :=
  .exprStmt (.binaryExpr (.assign none) (.variableExpr (ascii "obase") none)
    (.numberExpr zero)) false

theorem exec_registers_obase : ∃r st',exec {} 4 [zeroObase] {}=some (r,st') ∧ Sound [] st' :=
  ⟨_,_,rfl,@exec_registers {} 4 [zeroObase] {} _ _ (by unfold Sound; decide) rfl⟩

end Coreutils.BcRegisters
