import Mathlib.Data.List.Basic

/-!
# Conditional lines

Lines that open, turn and close conditionals. Resolving those on one name leaves out their control
lines and the branches not taken; every other line is text. A block that closes what it opens is
kept or dropped as a whole.
-/

namespace Coreutils.Conditionals
open List

/-- What a line does: `opens (some b)` begins a conditional on the name, whose first branch is taken
when `b`, `opens none` any other. `turns` is an else and `chains` an else with a condition. -/
inductive Role where
  | plain
  | opens (taken : Option Bool)
  | turns
  | chains
  | closes
  deriving DecidableEq,Repr

/-- An open conditional; on the name, whether the branch is taken and whether it has turned. -/
inductive Frame where
  | other
  | named (taken turned : Bool)
  deriving DecidableEq,Repr

def Frame.taken : Frame→Bool
  | .other => true
  | .named b _ => b

/-- The conditionals open after a line, innermost first, and whether the line is text. A second else
and an else with a condition have no meaning in a conditional on the name. -/
def advance : Role→List Frame→Option (List Frame×Bool)
  | .opens none,st => some (.other::st,true)
  | .opens (some b),st => some (.named b false::st,false)
  | .turns,.named b false::st => some (.named (!b) true::st,false)
  | .turns,.named _ true::_ | .chains,.named _ _::_ => none
  | .closes,.named _ _::st => some (st,false)
  | .closes,.other::st | _,st => some (st,true)

def depth : Role→ℕ→Option ℕ
  | .plain,d => some d
  | .opens none,d | .turns,d+1 | .chains,d+1 => some (d+1)
  | .closes,d+1 => some d
  | _,_ => none

/-- A line of a block is text, and moves the conditionals as it moves the depth. -/
theorem advance_of_depth {r : Role} {d d' : ℕ} (h : depth r d=some d') (st : List Frame) :
    advance r (replicate d .other++st)=some (replicate d' .other++st,true) := by
  cases r with
  | plain =>
    obtain rfl : d=d' := by simpa [depth] using h
    rfl
  | opens taken =>
    cases taken with
    | none =>
      obtain rfl : d+1=d' := by simpa [depth] using h
      rfl
    | some b => simp [depth] at h
  | turns | chains =>
    cases d with
    | zero => simp [depth] at h
    | succ d =>
      obtain rfl : d+1=d' := by simpa [depth] using h
      rfl
  | closes =>
    cases d with
    | zero => simp [depth] at h
    | succ d =>
      obtain rfl : d=d' := by simpa [depth] using h
      rfl

section
variable {α : Type} (role : α→Role)

/-- The text that is left. A conditional on the name that is never closed has no meaning. -/
def resolve : List Frame→List α→Option (List α)
  | st,[] => if st.all (· == .other) then some [] else none
  | st,l::ls => do
    let (st',text) ← advance (role l) st
    let out ← resolve st' ls
    pure (if text && st'.all Frame.taken then l::out else out)

/-- A block that, inside `d` conditionals of its own, closes all of them and touches no other. -/
def balanced : ℕ→List α→Bool
  | d,[] => d == 0
  | d,l::ls =>
    match depth (role l) d with
    | some d' => balanced d' ls
    | none => false

def Unnamed (ls : List α) : Prop := ∀l∈ls,∀b,role l≠.opens (some b)

variable {role} {st : List Frame}

theorem resolve_cons {l : α} {st' : List Frame} {text : Bool}
    (h : advance (role l) st=some (st',text)) (ls : List α) :
    resolve role st (l::ls)=(resolve role st' ls).map fun out =>
      if text && st'.all Frame.taken then l::out else out := by
  rw [resolve,h]
  simp only [Option.bind_eq_bind,Option.bind_some]
  cases resolve role st' ls <;> rfl

theorem all_taken_replicate (d : ℕ) (st : List Frame) :
    (replicate d Frame.other++st).all Frame.taken=st.all Frame.taken := by
  simp [Frame.taken]

theorem all_taken (h : ∀f∈st,f=.other) : st.all Frame.taken=true := by
  rw [all_eq_true]
  intro f hf
  rw [h f hf]
  rfl

/-- A balanced block is taken or left out with the branch it stands in. -/
theorem resolve_balanced {d : ℕ} {block : List α} (h : balanced role d block=true)
    (st : List Frame) (ls : List α) : resolve role (replicate d .other++st) (block++ls) =
      (resolve role st ls).map fun out => if st.all Frame.taken then block++out else out := by
  induction block generalizing d with
  | nil =>
    obtain rfl : d=0 := by simpa [balanced] using h
    simp
  | cons l block ih =>
    rw [balanced] at h
    cases hd : depth (role l) d with
    | none => simp [hd] at h
    | some d' =>
    have hbal : balanced role d' block=true := by simpa [hd] using h
    have hadv := advance_of_depth hd st
    rw [cons_append,resolve_cons hadv,ih hbal,Option.map_map,all_taken_replicate]
    cases st.all Frame.taken <;> rfl

/-- Where no conditional on the name is open, lines that are none are text. -/
theorem resolve_unnamed {block : List α} (h : Unnamed role block) (hst : ∀f∈st,f=.other) :
    ∃st',(∀f∈st',f=.other) ∧ ∀ls,
      resolve role st (block++ls)=(resolve role st' ls).map (block++·) := by
  induction block generalizing st with
  | nil => exact ⟨st,hst,fun ls => by simp⟩
  | cons l block ih =>
    have hline : ∃st',advance (role l) st=some (st',true) ∧ ∀f∈st',f=.other := by
      have hl := h l (by simp)
      cases hr : role l with
      | plain => exact ⟨st,rfl,hst⟩
      | opens taken =>
        cases taken with
        | none => exact ⟨.other::st,rfl,by simpa using hst⟩
        | some b => exact absurd hr (hl b)
      | turns | chains =>
        cases st with
        | nil => exact ⟨[],rfl,hst⟩
        | cons f st =>
          obtain rfl := hst f (by simp)
          exact ⟨.other::st,rfl,hst⟩
      | closes =>
        cases st with
        | nil => exact ⟨[],rfl,hst⟩
        | cons f st =>
          obtain rfl := hst f (by simp)
          exact ⟨st,rfl,fun f hf => hst f (by simp [hf])⟩
    obtain ⟨st₁,hadv,hst₁⟩ := hline
    obtain ⟨st',hst',hrest⟩ := ih (fun l hl => h l (by simp [hl])) hst₁
    refine ⟨st',hst',fun ls => ?_⟩
    have htaken := all_taken hst₁
    rw [cons_append,resolve_cons hadv,hrest]
    simp [htaken,Function.comp_def]

theorem resolve_branches {i e c : α} {b : Bool} (hi : role i=.opens (some b))
    (he : role e=.turns) (hc : role c=.closes) {A B : List α}
    (hA : balanced role 0 A=true) (hB : balanced role 0 B=true)
    (hst : ∀f∈st,f=.other) (ls : List α) : resolve role st (i::(A++e::(B++c::ls))) =
      (resolve role st ls).map ((if b then A else B)++·) := by
  have htaken := all_taken hst
  have h₁ := resolve_balanced hA (.named b false::st) (e::(B++c::ls))
  have h₂ := resolve_balanced hB (.named (!b) true::st) (c::ls)
  simp only [replicate_zero,nil_append,all_cons,htaken] at h₁ h₂
  rw [resolve_cons (by rw [hi]; rfl),h₁,resolve_cons (by rw [he]; rfl),h₂,
    resolve_cons (by rw [hc]; rfl),Option.map_map,Option.map_map,Option.map_map,Option.map_map]
  cases b <;> rfl

theorem resolve_branch {i c : α} {b : Bool} (hi : role i=.opens (some b))
    (hc : role c=.closes) {A : List α} (hA : balanced role 0 A=true)
    (hst : ∀f∈st,f=.other) (ls : List α) : resolve role st (i::(A++c::ls)) =
      (resolve role st ls).map ((if b then A else [])++·) := by
  have htaken := all_taken hst
  have h₁ := resolve_balanced hA (.named b false::st) (c::ls)
  simp only [replicate_zero,nil_append,all_cons,htaken] at h₁
  rw [resolve_cons (by rw [hi]; rfl),h₁,resolve_cons (by rw [hc]; rfl),Option.map_map,
    Option.map_map]
  cases b <;> rfl

end

end Coreutils.Conditionals
