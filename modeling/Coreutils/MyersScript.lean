import Coreutils.EditDistance

/-!
# The Myers engine of `diff`

`cmds/diff/myers.go`: the divide-and-conquer search for an edit script. An index out of range is
`none`, and so is a loop that runs longer than its fuel. `bisect` searches from both corners of the
edit grid and stops when a forward and a reverse path meet on one diagonal.
-/

namespace Coreutils.MyersScript

inductive OpKind where
  | opEq | opDel | opIns
  deriving DecidableEq,Repr

/-- `l[i]` with Go's bounds check. -/
def index? {β : Type*} (l : List β) (i : ℤ) : Option β :=
  if 0 ≤ i then l[i.toNat]? else none

def assign? {β : Type*} (l : List β) (i : ℤ) (x : β) : Option (List β) :=
  if 0 ≤ i ∧ i<l.length then some (l.set i.toNat x) else none

section

variable {α : Type*} [DecidableEq α]

/-- The loops that strip equal elements from the front of two slices. -/
def commonPrefix : List α→List α→ℕ
  | x::a,y::b => if x=y then commonPrefix a b+1 else 0
  | _,_ => 0

/-- `for x < n && y < m && a[x] == b[y] { x++; y++ }`, returning the final `x`. -/
def snake (a b : List α) (x y : ℤ) : Option ℤ :=
  if x<a.length ∧ y<b.length then
    if 0≤x ∧ 0≤y then
      some (x+commonPrefix (a.drop x.toNat) (b.drop y.toNat))
    else none
  else some x

def furthest (v : List ℤ) (vOff k : ℤ) (d : ℕ) : Option ℤ :=
  if k = -d then index? v (vOff+k+1)
  else if k=d then (index? v (vOff+k-1)).map (·+1)
  else do
    let l ← index? v (vOff+k-1)
    let r ← index? v (vOff+k+1)
    pure (if l<r then r else l+1)

/-- The furthest points of one direction by diagonal, and the two counters of its scan. -/
structure Pass where
  v : List ℤ
  kstart : ℤ
  kend : ℤ
  deriving DecidableEq,Repr

/-- One turn of a diagonal loop up to the overlap test: the new furthest point on `k`. -/
def visit (a b : List α) (vOff k : ℤ) (d : ℕ) (st : Pass) : Option (ℤ×Pass) := do
  let x₀ ← furthest st.v vOff k d
  let x ← snake a b x₀ (x₀-k)
  let v ← assign? st.v (vOff+k) x
  if x>a.length then pure (x,⟨v,st.kstart,st.kend+2⟩)
  else if x-k>b.length then pure (x,⟨v,st.kstart+2,st.kend⟩)
  else pure (x,⟨v,st.kstart,st.kend⟩)

def opposite (v : List ℤ) (ko : ℤ) : Option ℤ :=
  match index? v ko with
  | some x => if x = -1 then none else some x
  | none => none

/-- The forward loop: diagonals from high to low. `.inr` is a return from `bisect`. -/
def forwardPass (a b : List α) (vOff : ℤ) (d : ℕ) (v2 : List ℤ) : ℕ→ℤ→Pass→Option (Pass ⊕ ℤ×ℤ)
  | 0,k1,st => if -d+st.kstart≤k1 then none else some (.inl st)
  | fuel+1,k1,st =>
    if -d+st.kstart≤k1 then do
      let (x,st') ← visit a b vOff k1 d st
      let delta : ℤ := a.length-b.length
      if x≤a.length ∧ x-k1≤b.length ∧ delta % 2≠0 then
        match opposite v2 (vOff+delta-k1) with
        | some x2 =>
          if x≥a.length-x2 then some (.inr (x,x-k1))
          else forwardPass a b vOff d v2 fuel (k1-2) st'
        | none => forwardPass a b vOff d v2 fuel (k1-2) st'
      else forwardPass a b vOff d v2 fuel (k1-2) st'
    else some (.inl st)

/-- The reverse loop: diagonals from low to high, both sequences read from the far corner. -/
def reversePass (a b : List α) (vOff : ℤ) (d : ℕ) (v1 : List ℤ) : ℕ→ℤ→Pass→Option (Pass ⊕ ℤ×ℤ)
  | 0,k2,st => if k2≤d-st.kend then none else some (.inl st)
  | fuel+1,k2,st =>
    if k2≤d-st.kend then do
      let (x,st') ← visit a.reverse b.reverse vOff k2 d st
      let delta : ℤ := a.length-b.length
      if x≤a.length ∧ x-k2≤b.length ∧ delta % 2=0 then
        match opposite v1 (vOff+delta-k2) with
        | some x1 =>
          if x1≥a.length-x then some (.inr (x1,x1-(delta-k2)))
          else reversePass a b vOff d v1 fuel (k2+2) st'
        | none => reversePass a b vOff d v1 fuel (k2+2) st'
      else reversePass a b vOff d v1 fuel (k2+2) st'
    else some (.inl st)

/-- The loop over the number of edits; the first argument counts the turns left. -/
def bisectFrom (a b : List α) (vOff : ℤ) : ℕ→ℕ→Pass→Pass→Option (ℤ×ℤ×Bool)
  | 0,_,_,_ => some (0,0,false)
  | turns+1,d,fwd,rev => do
    match ← forwardPass a b vOff d rev.v (d+1) (d-fwd.kend) fwd with
    | .inr (x,y) => pure (x,y,true)
    | .inl fwd' =>
      match ← reversePass a b vOff d fwd'.v (d+1) (-d+rev.kstart) rev with
      | .inr (x,y) => pure (x,y,true)
      | .inl rev' => bisectFrom a b vOff turns (d+1) fwd' rev'

/-- A table of `-1` with the entry beside the zero diagonal set to zero. -/
def freshPass (maxD : ℕ) : Pass :=
  ⟨(List.replicate (2*maxD+4) (-1)).set (maxD+1) 0,0,0⟩

def bisect (a b : List α) : Option (ℤ×ℤ×Bool) :=
  let maxD := (a.length+b.length+1)/2
  bisectFrom a b maxD (maxD+1) 0 (freshPass maxD) (freshPass maxD)

/-- `myersRec`. The script is returned instead of appended to `out`. -/
def myersRec : ℕ→List α→List α→Option (List OpKind)
  | 0,_,_ => none
  | fuel+1,a,b => do
    let p := commonPrefix a b
    let s := commonPrefix (a.drop p).reverse (b.drop p).reverse
    let ma := (a.take (a.length-s)).drop p
    let mb := (b.take (b.length-s)).drop p
    let mid ←
      if ma.length=0 then some (List.replicate mb.length OpKind.opIns)
      else if mb.length=0 then some (List.replicate ma.length OpKind.opDel)
      else do
        let (x,y,ok) ← bisect ma mb
        if ok=false ∨ (x=0 ∧ y=0) ∨ (x=ma.length ∧ y=mb.length) then
          some (List.replicate ma.length OpKind.opDel++List.replicate mb.length OpKind.opIns)
        else if 0≤x ∧ x ≤ ma.length ∧ 0≤y ∧ y ≤ mb.length then do
          let left ← myersRec fuel (ma.take x.toNat) (mb.take y.toNat)
          let right ← myersRec fuel (ma.drop x.toNat) (mb.drop y.toNat)
          pure (left++right)
        else none
    pure (List.replicate p OpKind.opEq++mid++List.replicate s OpKind.opEq)

def myersOps (a b : List α) : Option (List OpKind) := myersRec (a.length+b.length+1) a b

end

example : myersOps [1,2,3] [1,3,4]=some [.opEq,.opDel,.opEq,.opIns] := by decide

end Coreutils.MyersScript
