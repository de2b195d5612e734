import Coreutils.BcInterpreter

/-!
# Calls of bc functions restore their locals

A call binds its parameters and automatic variables one after another, each over what its name had,
and puts back what it saved when the body has ended.
-/

namespace Coreutils.BcCalls
open List GoText BcNumber DynamicBinding BcInterpreter

def scalarBindings (bs : List (Param×Arg)) : List (Name×Number) :=
  bs.filterMap fun p =>
    match p.2 with
    | .scalar v => some (p.1.name,v)
    | .array _ => none

def arrayBindings (bs : List (Param×Arg)) : List (Name×Elements) :=
  bs.filterMap fun p =>
    match p.2 with
    | .scalar _ => none
    | .array a => some (p.1.name,a)

def Function.scalars (f : Function) : List Name :=
  ((f.params++f.autos).filter (!·.array)).map (·.name)

def Function.arrays (f : Function) : List Name :=
  ((f.params++f.autos).filter (·.array)).map (·.name)

/-- The local names of `f` have in `st'` what they had in `st`. -/
def Restored (f : Function) (st st' : State) : Prop :=
  (∀x∈Function.scalars f,st'.vars x=st.vars x) ∧
    ∀x∈Function.arrays f,st'.arrays x=st.arrays x

/-- An argument is an array for an array parameter and a number for a scalar one. -/
def Matches (p : Param) (v : Arg) : Prop :=
  match v with
  | .scalar _ => p.array=false
  | .array _ => p.array=true

theorem foldl_bind (bs : List (Param×Arg)) (l : Locals) : bs.foldl Locals.bind l =
      ⟨(scalarBindings bs).foldl Frame.bind l.vars,
        (arrayBindings bs).foldl Frame.bind l.arrays⟩ := by
  induction bs generalizing l with
  | nil => rfl
  | cons b bs ih =>
    obtain ⟨p,v⟩ := b
    cases v with
    | scalar | array => exact ih _

theorem matches_autoArg (p : Param) : Matches p (autoArg p) := by
  unfold autoArg Matches
  cases h : p.array <;> simp

variable {st st' : State} {env : Env} {fuel : ℕ} {vals : List Arg} {f : Function}
  {r : Except BcError Number} {args : List Expr}

theorem andThen_eq_ok {α β : Type} {o : Outcome α} {k : α→State→Outcome β} {v : β}
    (h : andThen o k=some (.ok v,st)) : ∃a st',o=some (.ok a,st') ∧ k a st'=some (.ok v,st) := by
  unfold andThen at h
  split at h
  · cases h
  · cases h
  · exact ⟨_,_,rfl,h⟩

theorem matches_passArray {p : Param} {e : Expr} {v : Arg} (hp : p.array=true)
    (h : passArray p e st=.ok v) : Matches p v := by
  unfold passArray at h
  split at h
  · cases h
    exact hp
  · cases h

/-- The arguments are as many as the parameters and of their kinds. -/
theorem evalArgs_matches {ps : List Param} (hlen : args.length=ps.length)
    (h : evalArgs env fuel ps args st=some (.ok vals,st')) : List.Forall₂ Matches ps vals := by
  induction ps generalizing fuel args st vals with
  | nil =>
    cases fuel with
    | zero => cases h
    | succ fuel =>
      cases h
      exact .nil
  | cons p ps ih =>
    cases args with
    | nil => simp at hlen
    | cons arg args =>
      cases fuel with
      | zero => cases h
      | succ fuel =>
        have hlen' : args.length=ps.length := by simpa using hlen
        rw [evalArgs] at h
        split_ifs at h with hp
        · split at h
          · cases h
          · rename_i v hv
            obtain ⟨vs,st₁,hvs,h⟩ := andThen_eq_ok h
            cases h
            exact .cons (matches_passArray hp hv) (ih hlen' hvs)
        · obtain ⟨v,st₁,-,h⟩ := andThen_eq_ok h
          obtain ⟨vs,st₂,hvs,h⟩ := andThen_eq_ok h
          cases h
          exact .cons (by simpa [Matches] using hp) (ih hlen' hvs)

/-- The names bound, for arguments of the right kinds. -/
theorem names_of_matches {bs : List (Param×Arg)} (h : ∀b∈bs,Matches b.1 b.2) :
    (scalarBindings bs).map Prod.fst=((bs.map Prod.fst).filter (!·.array)).map (·.name) ∧
      (arrayBindings bs).map Prod.fst=((bs.map Prod.fst).filter (·.array)).map (·.name) := by
  induction bs with
  | nil => exact ⟨rfl,rfl⟩
  | cons b bs ih =>
    obtain ⟨p,v⟩ := b
    obtain ⟨hs,ha⟩ := ih fun b hb => h b (by simp [hb])
    have hm := h (p,v) (by simp)
    cases v with
    | scalar v =>
      have hp : p.array=false := hm
      simpa [scalarBindings,hp] using ⟨hs,ha⟩
    | array a =>
      have hp : p.array=true := hm
      simpa [arrayBindings,hp] using ⟨hs,ha⟩

theorem bindings_names (h : List.Forall₂ Matches f.params vals) :
    (scalarBindings (bindings f vals)).map Prod.fst=Function.scalars f ∧
      (arrayBindings (bindings f vals)).map Prod.fst=Function.arrays f := by
  have hzip : (f.params.zip vals).map Prod.fst=f.params := map_fst_zip h.length_eq.le
  have hfst : (bindings f vals).map Prod.fst=f.params++f.autos := by
    rw [bindings,map_append,hzip]
    simp [Function.comp_def]
  have hall : ∀b∈bindings f vals,Matches b.1 b.2 :=
    forall_mem_append.mpr ⟨fun b => List.forall₂_zip h,forall_mem_map.mpr fun p _ =>
      matches_autoArg p⟩
  obtain ⟨hs,ha⟩ := names_of_matches hall
  rw [hfst] at hs ha
  exact ⟨hs,ha⟩

/-- A call that ends leaves through `leaveCall`, whether it has a value or an error. -/
theorem callUser_leaves (h : callUser env fuel f vals st=some (r,st')) :
    ∃st₁,st'=leaveCall (bindLocals f vals st) st₁ := by
  cases fuel with
  | zero => cases h
  | succ fuel =>
    rw [callUser] at h
    split at h
    · cases h
    · cases h
      exact ⟨_,rfl⟩
    · cases h
      exact ⟨_,rfl⟩

/-- A call of a user function whose arguments have been evaluated. -/
theorem eval_call {name : Name} {st₁ : State} (hf : callee env st name=.user f)
    (hlen : args.length=f.params.length)
    (hargs : evalArgs env fuel f.params args st=some (.ok vals,st₁)) :
    eval env (fuel+1) (.callExpr name args) st=callUser env fuel f vals st₁ := by
  simp [eval,hf,hlen,hargs,andThen]

theorem callUser_restored_iff (hvals : List.Forall₂ Matches f.params vals)
    (h : callUser env fuel f vals st=some (r,st')) :
    Restored f st st' ↔ Harmless (scalarBindings (bindings f vals)) st.vars ∧
      Harmless (arrayBindings (bindings f vals)) st.arrays := by
  obtain ⟨st₂,rfl⟩ := callUser_leaves h
  obtain ⟨hs,ha⟩ := bindings_names hvals
  rw [Restored,←hs,←ha,bindLocals,foldl_bind]
  exact and_congr (restore_iff st.vars st₂.vars _) (restore_iff st.arrays st₂.arrays _)

/-- A function that lists no name twice restores its locals whatever its body does. -/
theorem callUser_restores (hscalars : (Function.scalars f).Nodup)
    (harrays : (Function.arrays f).Nodup) (hvals : List.Forall₂ Matches f.params vals)
    (h : callUser env fuel f vals st=some (r,st')) : Restored f st st' := by
  obtain ⟨hs,ha⟩ := bindings_names hvals
  rw [←hs] at hscalars
  rw [←ha] at harrays
  exact (callUser_restored_iff hvals h).mpr
    ⟨harmless_of_nodup hscalars st.vars,harmless_of_nodup harrays st.arrays⟩

/-- The locals are restored exactly when every name listed more than once, as scalar or as array,
had already the value of its last binding but one. -/
theorem call_restores_iff {env : Env} {fuel : ℕ} {name : Name} {f : Function}
    {st st₁ st' : State} {vals : List Arg} {r : Except BcError Number}
    (hf : callee env st name=.user f) (hlen : args.length=f.params.length)
    (hargs : evalArgs env fuel f.params args st=some (.ok vals,st₁))
    (h : eval env (fuel+1) (.callExpr name args) st=some (r,st')) :
    Restored f st₁ st' ↔ Harmless (scalarBindings (bindings f vals)) st₁.vars ∧
      Harmless (arrayBindings (bindings f vals)) st₁.arrays := by
  rw [eval_call hf hlen hargs] at h
  exact callUser_restored_iff (evalArgs_matches hlen hargs) h

def assigns : Function :=
  ⟨[⟨ascii "a",false⟩],[],[.exprStmt (.binaryExpr (.assign none)
    (.variableExpr (ascii "a") none) (.numberExpr ⟨7,0⟩)) false]⟩

def twice : Function := ⟨[⟨ascii "a",false⟩,⟨ascii "a",false⟩],[],[]⟩

def defined (f : Function) : State where
  funcs := fun x => if x=ascii "f" then some f else none

theorem call_restores_assigned :
    ∃r st',eval {} 9 (.callExpr (ascii "f") [.numberExpr ⟨1,0⟩]) (defined assigns) =
      some (r,st') ∧ Restored assigns (defined assigns) st' := by
  refine ⟨_,_,rfl,?_⟩
  have hcall : eval {} 9 (.callExpr (ascii "f") [.numberExpr ⟨1,0⟩]) (defined assigns)=_ := rfl
  refine (call_restores_iff rfl rfl rfl hcall).mpr ⟨?_,?_⟩
  · exact harmless_of_nodup (by decide) _
  · exact harmless_of_nodup (by decide) _

/-- After `f(1, 2)` the variable `a`, which had no value, is 1. -/
theorem call_twice_not_restored :
    ∃r st',eval {} 9 (.callExpr (ascii "f") [.numberExpr ⟨1,0⟩,.numberExpr ⟨2,0⟩])
      (defined twice)=some (r,st') ∧ ¬ Restored twice (defined twice) st' := by
  refine ⟨_,_,rfl,fun h => ?_⟩
  have ha : some (⟨1,0⟩ : Number)=none := h.1 (ascii "a") (by decide)
  cases ha

end Coreutils.BcCalls
