import Coreutils.MergeJoin
import Coreutils.SortOrder
import Mathlib.Data.List.GetD

/-!
# The join of two files

`join` walks both files by groups of lines with equal keys and checks their order as it goes. On
sorted files the check never fires, a group has all lines of its key, and the join of the two tables
is written.
-/

namespace Coreutils.JoinFiles
open List GoText SortKeys SortOrder Comparators MergeJoin

/-- How a line is cut into fields: at runs of blanks, not at all (`-t ''`), or at a character. -/
inductive Tab where
  | blanks
  | wholeLine
  | char (c : UInt8)

/-- An item of `-o`: the join field, or a field of a file, counted from zero. -/
inductive Spec where
  | joinField
  | field (file : Fin 2) (field : ℕ)

/-- The options; fields are counted from zero, and `printU` is set by `-a` and by `-v`. -/
structure Options where
  field : Fin 2→ℕ
  tab : Tab
  printU : Fin 2→Bool
  suppressed : Fin 2→Bool
  ignoreCase : Bool
  checkOrder : Bool
  nocheckOrder : Bool
  header : Bool
  zeroTerminated : Bool
  specs : List Spec
  empty : Bytes

variable (opt : Options)

/-- `splitFields`. A line without fields is a nil slice, and there are no others without fields. -/
def splitFields (line : Bytes) : List Bytes :=
  match opt.tab with
  | .wholeLine => [line]
  | .char c => line.splitOn c
  | .blanks => (line.splitOnP isBlank).filter (·≠[])

def fieldAt (fields : List Bytes) (idx : ℕ) : Bytes := fields.getD idx []

def otherFields (fields : List Bytes) (idx : ℕ) : List Bytes := fields.eraseIdx idx

def selectedField (fields : List Bytes) (idx : ℕ) : Bytes :=
  if fieldAt fields idx≠[] then fieldAt fields idx else opt.empty

def buildOutput (flds1 flds2 : List Bytes) (field1 field2 : ℕ) (isPaired : Bool) : List Bytes :=
  if opt.specs=[] then
    if isPaired then
      fieldAt flds1 field1::(otherFields flds1 field1++otherFields flds2 field2)
    else if flds1≠[] then fieldAt flds1 field1::otherFields flds1 field1
    else if flds2≠[] then fieldAt flds2 field2::otherFields flds2 field2
    else []
  else
    let joinVal :=
      if flds1≠[] then fieldAt flds1 field1
      else if flds2≠[] then fieldAt flds2 field2 else []
    opt.specs.map fun
      | .joinField => if joinVal=[] then opt.empty else joinVal
      | .field file field => selectedField opt (if file=0 then flds1 else flds2) field

def outputLine (parts : List Bytes) : Bytes :=
  (match opt.tab with
  | .char c => [c]
  | _ => ascii " ").intercalate parts++[if opt.zeroTerminated then 0 else newline]

def compareFolded : Bytes→Bytes→ℤ
  | [],[] => 0
  | [],_::_ => -1
  | _::_,[] => 1
  | a::as,b::bs =>
    if upperByte a<upperByte b then -1
    else if upperByte b<upperByte a then 1
    else compareFolded as bs

def compareKeys (a b : Bytes) : ℤ := if opt.ignoreCase then compareFolded a b else compareBytes a b

structure FileState where
  name : Bytes
  idx : Fin 2
  lines : List Bytes
  pos : ℕ := 0
  checked : ℕ := 0
  warned : Bool := false

/-- What the two files share, with what was written to the standard error. -/
structure Shared where
  seenUnpairable : Bool := false
  orderError : Bool := false
  err : Bytes := []

def keyOfLine (idx : Fin 2) (line : Bytes) : Bytes := fieldAt (splitFields opt line) (opt.field idx)

def keyOf (f : FileState) (i : ℕ) : Bytes := keyOfLine opt f.idx (f.lines.getD i [])

def notSorted (f : FileState) : Bytes :=
  ascii "join: " ++ f.name++ascii ":" ++ itoa (f.checked+1)++ascii ": is not sorted: " ++
    f.lines.getD f.checked []++ascii "\n"

/-- The loop of `touch`, with the number of lines that are left to check. -/
def touchLoop : ℕ→Shared→FileState→Shared×FileState
  | 0,sh,f => (sh,f)
  | n+1,sh,f =>
    let f' := { f with checked := f.checked+1 }
    if !opt.nocheckOrder && 0<compareKeys opt (keyOf opt f f.checked) (keyOf opt f (f.checked+1))
      then
      if opt.checkOrder then ({ sh with orderError := true,err := sh.err++notSorted f' },f')
      else if sh.seenUnpairable && !f.warned then
        touchLoop n { sh with err := sh.err++notSorted f' } { f' with warned := true }
      else touchLoop n sh f'
    else touchLoop n sh f'

def touch (sh : Shared) (f : FileState) (i : ℕ) : Shared×FileState :=
  touchLoop opt (i-f.checked) sh f

structure Group where
  key : Bytes
  start : ℕ
  stop : ℕ

/-- The loop of `nextGroup`, given the lines left: the group's end, or none at an order error. -/
def groupEnd (key : Bytes) : ℕ→ℕ→Shared→FileState→Option ℕ×Shared×FileState
  | 0,i,sh,f => (some i,sh,f)
  | n+1,i,sh,f =>
    let (sh,f) := touch opt sh f i
    if sh.orderError then (none,sh,f)
    else if compareKeys opt (keyOf opt f i) key≠0 then (some i,sh,f)
    else groupEnd key n (i+1) sh f

def nextGroup (sh : Shared) (f : FileState) : Option Group×Shared×FileState :=
  if f.lines.length≤f.pos then (none,sh,f)
  else
    let key := keyOf opt f f.pos
    let (sh',f') := touch opt sh f f.pos
    if sh'.orderError then (none,sh',f')
    else
      match groupEnd opt key (f.lines.length-(f.pos+1)) (f.pos+1) sh' f' with
      | (none,sh'',f'') => (none,sh'',f'')
      | (some stop,sh'',f'') => (some ⟨key,f.pos,stop⟩,sh'',{ f'' with pos := stop })

structure Joining where
  sh : Shared
  f1 : FileState
  f2 : FileState
  out : Bytes

def slice (f : FileState) (g : Group) : List Bytes := (f.lines.drop g.start).take (g.stop-g.start)

def unpairedLine (idx : Fin 2) (line : Bytes) : Bytes :=
  outputLine opt (if idx=0 then buildOutput opt (splitFields opt line) [] (opt.field 0) 0 false
    else buildOutput opt [] (splitFields opt line) 0 (opt.field 1) false)

def emitUnpaired (f : FileState) (g : Group) (st : Joining) : Joining :=
  { st with
    sh := { st.sh with seenUnpairable := true }
    out := if opt.printU f.idx then st.out++(slice f g).flatMap (unpairedLine opt f.idx)
      else st.out }

def pairedLine (l1 l2 : Bytes) : Bytes :=
  outputLine opt (buildOutput opt (splitFields opt l1) (splitFields opt l2) (opt.field 0)
    (opt.field 1)
    true)

def printJoined : Bool := !(opt.suppressed 0 || opt.suppressed 1)

def emitJoined (g1 g2 : Group) (st : Joining) : Joining :=
  if printJoined opt then
    { st with out := st.out++(slice st.f1 g1).flatMap fun l1 =>
        (slice st.f2 g2).flatMap (pairedLine opt l1) }
  else st

def next1 (st : Joining) : Option Group×Joining :=
  ((nextGroup opt st.sh st.f1).1,
    { st with sh := (nextGroup opt st.sh st.f1).2.1,f1 := (nextGroup opt st.sh st.f1).2.2 })

def next2 (st : Joining) : Option Group×Joining :=
  ((nextGroup opt st.sh st.f2).1,
    { st with sh := (nextGroup opt st.sh st.f2).2.1,f2 := (nextGroup opt st.sh st.f2).2.2 })

/-- The merge loop and the two loops after it, for the file that is left. All stop at an order
error, and each round takes a group. -/
def mergeLoop : ℕ→Option Group→Option Group→Joining→Option Joining
  | 0,_,_,_ => none
  | fuel+1,g1,g2,st =>
    if st.sh.orderError then some st
    else
      match g1,g2 with
      | some g1,some g2 =>
        let d := compareKeys opt g1.key g2.key
        if d<0 then
          let (g1,st) := next1 opt (emitUnpaired opt st.f1 g1 st)
          mergeLoop fuel g1 (some g2) st
        else if 0<d then
          let (g2,st) := next2 opt (emitUnpaired opt st.f2 g2 st)
          mergeLoop fuel (some g1) g2 st
        else
          let (g1,st) := next1 opt (emitJoined opt g1 g2 st)
          let (g2,st) := next2 opt st
          mergeLoop fuel g1 g2 st
      | some g1,none =>
        let (g1,st) := next1 opt (emitUnpaired opt st.f1 g1 st)
        mergeLoop fuel g1 none st
      | none,some g2 =>
        let (g2,st) := next2 opt (emitUnpaired opt st.f2 g2 st)
        mergeLoop fuel none g2 st
      | none,none => some st

def inputLines (data : Bytes) : List Bytes :=
  let sep := if opt.zeroTerminated then 0 else newline
  if data=[] then []
  else (if data.getLast?=some sep then data.dropLast else data).splitOn sep

def headerLine (lines1 lines2 : List Bytes) : Bytes :=
  let h1 := (lines1.head?.map (splitFields opt)).getD []
  let h2 := (lines2.head?.map (splitFields opt)).getD []
  if h1≠[] ∧ h2≠[] then
    outputLine opt (buildOutput opt h1 h2 (opt.field 0) (opt.field 1) true)
  else if h1≠[] then
    if opt.printU 0 then outputLine opt (buildOutput opt h1 [] (opt.field 0) 0 false) else []
  else if h2≠[] then
    if opt.printU 1 then outputLine opt (buildOutput opt [] h2 0 (opt.field 1) false) else []
  else []

structure Result where
  out : Bytes
  err : Bytes
  code : ℕ
  deriving DecidableEq

def finish (st : Joining) : Result :=
  if st.sh.orderError then ⟨[],st.sh.err,1⟩
  else if st.f1.warned || st.f2.warned then
    ⟨st.out,st.sh.err++ascii "join: input is not in sorted order\n",1⟩
  else ⟨st.out,st.sh.err,0⟩

/-- The first groups of both files; after an order error in the first no second is used. -/
def start (st : Joining) : Option Group×Option Group×Joining :=
  let (g1,st) := next1 opt st
  let (g2,st) := next2 opt st
  (g1,g2,st)

/-- `runWithProviders` on the contents of two files. -/
def runJoin (name1 name2 data1 data2 : Bytes) : Option Result :=
  let lines1 := inputLines opt data1
  let lines2 := inputLines opt data2
  let drop := if opt.header then 1 else 0
  let (g1,g2,st) := start opt
    { sh := {}
      f1 := { name := name1,idx := 0,lines := lines1.drop drop }
      f2 := { name := name2,idx := 1,lines := lines2.drop drop }
      out := if opt.header then headerLine opt lines1 lines2 else [] }
  (mergeLoop opt (lines1.length+lines2.length+1) g1 g2 st).map finish

def keyValue (key : Bytes) : List ℕ :=
  bytesValue (if opt.ignoreCase then key.map upperByte else key)

theorem compareFolded_eq (a b : Bytes) :
    compareFolded a b=compareBytes (a.map upperByte) (b.map upperByte) := by
  fun_induction compareFolded a b with
  | case1 | case2 | case3 => rfl
  | case4 a as b bs h => simp [compareBytes,h]
  | case5 a as b bs h h' => simp [compareBytes,h,h']
  | case6 a as b bs h h' ih => simp [compareBytes,h,h',ih]

theorem compareKeys_eq (a b : Bytes) :
    compareKeys opt a b=order (keyValue opt a) (keyValue opt b) := by
  simp only [compareKeys,keyValue]
  split
  · rw [compareFolded_eq,compareBytes_eq]
  · exact compareBytes_eq a b

def value (idx : Fin 2) (line : Bytes) : List ℕ := keyValue opt (keyOfLine opt idx line)

def Sorted (idx : Fin 2) (lines : List Bytes) : Prop :=
  lines.IsChain fun a b => compareKeys opt (keyOfLine opt idx a) (keyOfLine opt idx b)≤0

variable {opt} {f : FileState} {i : ℕ} {sh : Shared} {st : Joining} {lines : List Bytes}

theorem Sorted.pairwise {idx : Fin 2} (h : Sorted opt idx lines) :
    lines.Pairwise fun a b => value opt idx a≤value opt idx b := by
  have hle : lines.IsChain fun a b => value opt idx a≤value opt idx b :=
    List.IsChain.imp (fun a b hab => by rwa [compareKeys_eq,order_nonpos] at hab) h
  exact isChain_iff_pairwise.mp hle

/-- A file that is sorted and was found to be so, as far as it was checked. -/
structure Good (opt : Options) (f : FileState) : Prop where
  sorted : f.lines.Pairwise fun a b => value opt f.idx a≤value opt f.idx b
  warned : f.warned=false

theorem value_getD (hf : Good opt f) {j : ℕ} (hij : i≤j) (hj : j<f.lines.length) :
    value opt f.idx (f.lines.getD i [])≤value opt f.idx (f.lines.getD j []) := by
  rcases hij.eq_or_lt with rfl | hlt
  · exact le_rfl
  · have h := pairwise_iff_getElem.mp hf.sorted i j (by omega) hj hlt
    rwa [getD_eq_getElem _ _ (by omega),getD_eq_getElem _ _ hj]

/-- The order check finds nothing in a sorted file. -/
theorem touchLoop_eq (n : ℕ) (hf : Good opt f) (hn : n=0 ∨ f.checked+n<f.lines.length) :
    touchLoop opt n sh f=(sh,{ f with checked := f.checked+n }) := by
  induction n generalizing f with
  | zero => rfl
  | succ n ih =>
    have hle := value_getD hf (Nat.le_succ f.checked) (by omega)
    have hord : ¬0<compareKeys opt (keyOf opt f f.checked) (keyOf opt f (f.checked+1)) := by
      rw [compareKeys_eq,not_lt,order_nonpos]
      exact hle
    simp only [touchLoop,hord]
    have hf' : Good opt { f with checked := f.checked+1 } := ⟨hf.sorted,hf.warned⟩
    have hn' : n=0 ∨ f.checked+1+n<f.lines.length := by omega
    rw [ih hf' hn']
    simp [add_assoc,add_comm 1 n]

theorem touch_eq (hf : Good opt f) (hi : i<f.lines.length) :
    touch opt sh f i=(sh,{ f with checked := max f.checked i }) := by
  rw [touch,touchLoop_eq _ hf (by omega)]
  congr 2
  omega

def leading (opt : Options) (idx : Fin 2) (key : Bytes) (lines : List Bytes) : List Bytes :=
  lines.takeWhile fun l => value opt idx l=keyValue opt key

theorem groupEnd_eq (key : Bytes) {n : ℕ} (hf : Good opt f)
    (hn : i+n=f.lines.length) (hsh : sh.orderError=false) : ∃c,groupEnd opt key n i sh f =
      (some (i+(leading opt f.idx key (f.lines.drop i)).length),sh,{ f with checked := c }) := by
  induction n generalizing i f with
  | zero =>
    refine ⟨f.checked,?_⟩
    rw [drop_eq_nil_of_le (by omega)]
    rfl
  | succ n ih =>
    have hi : i<f.lines.length := by omega
    have hkey : keyOf opt f i=keyOfLine opt f.idx f.lines[i] := by rw [keyOf,getD_eq_getElem _ _ hi]
    rw [drop_eq_getElem_cons hi,leading]
    simp only [groupEnd,touch_eq hf hi,hsh,Bool.false_eq_true,if_false]
    have hkey' : keyOf opt { f with checked := max f.checked i } i=keyOf opt f i := rfl
    rw [hkey',hkey,compareKeys_eq]
    by_cases heq : value opt f.idx f.lines[i]=keyValue opt key
    · have hf' : Good opt { f with checked := max f.checked i } := ⟨hf.sorted,hf.warned⟩
      have hn' : i+1+n=f.lines.length := by omega
      obtain ⟨c,hc⟩ := ih hf' hn'
      rw [if_neg (by rw [not_not,order_eq_zero]; exact heq),hc,
        takeWhile_cons_of_pos (by simpa using heq)]
      refine ⟨c,?_⟩
      simp [leading,add_assoc,add_comm 1]
    · rw [if_pos (by rw [ne_eq,order_eq_zero]; exact heq),
        takeWhile_cons_of_neg (by simpa using heq)]
      exact ⟨_,rfl⟩

/-- A group and the lines after it: all of the lines left, with those of the group first. -/
def Cursor (opt : Options) (f : FileState) : Option Group→List Bytes→Prop
  | none,lines => lines=[]
  | some g,lines => slice f g≠[] ∧ lines=slice f g++f.lines.drop f.pos ∧
    (∀l∈slice f g,value opt f.idx l=keyValue opt g.key) ∧
    ∀l∈f.lines.drop f.pos,keyValue opt g.key<value opt f.idx l

theorem cursor_of_lt (hf : Good opt f) (hlt : f.pos<f.lines.length) (c : ℕ) {n : ℕ}
    (hn : n=(leading opt f.idx (keyOf opt f f.pos) (f.lines.drop (f.pos+1))).length) :
    Cursor opt { f with checked := c,pos := f.pos+1+n }
      (some ⟨keyOf opt f f.pos,f.pos,f.pos+1+n⟩) (f.lines.drop f.pos) := by
  have hkey : keyValue opt (keyOf opt f f.pos)=value opt f.idx f.lines[f.pos] := by
    rw [keyOf,getD_eq_getElem _ _ hlt,value]
  have hsorted : (f.lines.drop f.pos).Pairwise _ := hf.sorted.drop
  rw [leading,hkey] at hn
  rw [drop_eq_getElem_cons hlt] at hsorted ⊢
  obtain ⟨hle,hmore⟩ := pairwise_cons.mp hsorted
  have hdrop := drop_eq_getElem_cons hlt
  set same : Bytes→Bool := fun l => decide (value opt f.idx l=value opt f.idx f.lines[f.pos])
  set group := (f.lines.drop (f.pos+1)).takeWhile same
  set rest := (f.lines.drop (f.pos+1)).dropWhile same
  have hgt : ∀l∈rest,_ := lt_of_mem_dropWhile (fun l => by simp [same]) hmore hle
  have hall : ∀l∈group,value opt f.idx l=value opt f.idx f.lines[f.pos] := fun l hl => by
    simpa [same] using mem_takeWhile_imp hl
  have hsplit : group++rest=f.lines.drop (f.pos+1) := takeWhile_append_dropWhile
  subst hn
  have hrest : f.lines.drop (f.pos+1+group.length)=rest := by rw [←drop_drop,←hsplit,drop_left]
  have hslice : slice { f with checked := c,pos := f.pos+1+group.length }
      ⟨keyOf opt f f.pos,f.pos,f.pos+1+group.length⟩=f.lines[f.pos]::group := by
    have hlen : f.pos+1+group.length-f.pos=group.length+1 := by omega
    simp only [slice,hlen]
    rw [hdrop,take_succ_cons,←hsplit,take_left]
  refine ⟨by simp [hslice],?_,?_,?_⟩
  · simp only [hslice,hrest]
    rw [cons_append,hsplit]
  · simp only [hslice,hkey]
    exact forall_mem_cons.mpr ⟨rfl,hall⟩
  · simp only [hrest,hkey]
    exact hgt

theorem nextGroup_spec (hf : Good opt f) (hsh : sh.orderError=false) :
    ∃g f',nextGroup opt sh f=(g,sh,f') ∧ Good opt f' ∧ f'.idx=f.idx ∧
      Cursor opt f' g (f.lines.drop f.pos) := by
  unfold nextGroup
  split_ifs with hend
  · exact ⟨none,f,rfl,hf,rfl,drop_eq_nil_of_le hend⟩
  have hlt : f.pos<f.lines.length := by omega
  have hf' : Good opt { f with checked := max f.checked f.pos } := ⟨hf.sorted,hf.warned⟩
  have hn : f.pos+1+(f.lines.length-(f.pos+1))=f.lines.length := by omega
  obtain ⟨c,hc⟩ := groupEnd_eq (keyOf opt f f.pos) hf' hn hsh
  simp only [touch_eq hf hlt,hsh,hc]
  refine ⟨_,_,rfl,⟨hf.sorted,hf.warned⟩,rfl,?_⟩
  exact cursor_of_lt hf hlt c rfl

def unpaired (opt : Options) (idx : Fin 2) (l : Bytes) : List Bytes :=
  if opt.printU idx then
    [outputLine opt (keyOfLine opt idx l::otherFields (splitFields opt l) (opt.field idx))]
  else []

def paired (opt : Options) (l1 l2 : Bytes) : List Bytes :=
  if printJoined opt then
    [outputLine opt (keyOfLine opt 0 l1::(otherFields (splitFields opt l1) (opt.field 0) ++
      otherFields (splitFields opt l2) (opt.field 1)))]
  else []

def rows (opt : Options) : Output Bytes Bytes Bytes where
  pair := paired opt
  left := unpaired opt 0
  right := unpaired opt 1

theorem outputLine_nil (opt : Options) : outputLine opt []=outputLine opt [[]] := by
  simp [outputLine]

theorem unpairedLine_eq (hspecs : opt.specs=[]) (idx : Fin 2) (l : Bytes) : unpairedLine opt idx l =
      outputLine opt (keyOfLine opt idx l::otherFields (splitFields opt l) (opt.field idx)) := by
  simp only [unpairedLine,buildOutput,hspecs,keyOfLine]
  -- a line without fields is written as one with an empty field
  by_cases hfields : splitFields opt l=[]
  · simp [hfields,fieldAt,otherFields,outputLine_nil]
  · obtain rfl | rfl : idx=0 ∨ idx=1 := by omega
    · simp [hfields]
    · simp [hfields]

theorem flatten_flatMap {ι : Type*} (f : ι→List Bytes) (l : List ι) :
    (l.flatMap f).flatten=l.flatMap fun i => (f i).flatten := by
  induction l with
  | nil => rfl
  | cons i l ih => simp [ih]

theorem emitUnpaired_out (hspecs : opt.specs=[]) (f : FileState) (g : Group) (st : Joining) :
    (emitUnpaired opt f g st).out=st.out++((slice f g).flatMap (unpaired opt f.idx)).flatten := by
  rw [flatten_flatMap]
  simp only [emitUnpaired,unpaired]
  split
  · simp [←unpairedLine_eq hspecs]
  · simp

theorem emitJoined_out (hspecs : opt.specs=[]) (g1 g2 : Group) (st : Joining) :
    (emitJoined opt g1 g2 st).out=st.out ++
      ((slice st.f1 g1).flatMap fun l1 => (slice st.f2 g2).flatMap (paired opt l1)).flatten := by
  have hline : ∀l1 l2,pairedLine opt l1 l2=outputLine opt (keyOfLine opt 0 l1 ::
      (otherFields (splitFields opt l1) (opt.field 0) ++
        otherFields (splitFields opt l2) (opt.field 1))) := by
    intro l1 l2
    simp [pairedLine,buildOutput,hspecs,keyOfLine]
  simp only [flatten_flatMap,emitJoined,paired]
  split
  · simp [←hline]
  · simp

/-- Both files are sorted, and no diagnostic was written. -/
structure Ready (opt : Options) (st : Joining) : Prop where
  orderError : st.sh.orderError=false
  err : st.sh.err=[]
  good1 : Good opt st.f1
  good2 : Good opt st.f2
  idx1 : st.f1.idx=0
  idx2 : st.f2.idx=1

theorem next1_spec (h : Ready opt st) :
    ∃g st',next1 opt st=(g,st') ∧ Ready opt st' ∧ st'.out=st.out ∧ st'.f2=st.f2 ∧
      Cursor opt st'.f1 g (st.f1.lines.drop st.f1.pos) := by
  obtain ⟨g,f',heq,hgood,hidx,hcursor⟩ := nextGroup_spec h.good1 h.orderError
  refine ⟨g,{ st with f1 := f' },by rw [next1,heq],?_,rfl,rfl,hcursor⟩
  exact ⟨h.orderError,h.err,hgood,h.good2,hidx.trans h.idx1,h.idx2⟩

theorem next2_spec (h : Ready opt st) :
    ∃g st',next2 opt st=(g,st') ∧ Ready opt st' ∧ st'.out=st.out ∧ st'.f1=st.f1 ∧
      Cursor opt st'.f2 g (st.f2.lines.drop st.f2.pos) := by
  obtain ⟨g,f',heq,hgood,hidx,hcursor⟩ := nextGroup_spec h.good2 h.orderError
  refine ⟨g,{ st with f2 := f' },by rw [next2,heq],?_,rfl,rfl,hcursor⟩
  exact ⟨h.orderError,h.err,h.good1,hgood,h.idx1,hidx.trans h.idx2⟩

theorem Ready.emitUnpaired (h : Ready opt st) (f : FileState) (g : Group) :
    Ready opt (emitUnpaired opt f g st) :=
  ⟨h.orderError,h.err,h.good1,h.good2,h.idx1,h.idx2⟩

theorem emitJoined_eq (g1 g2 : Group) (st : Joining) :
    emitJoined opt g1 g2 st={ st with out := (emitJoined opt g1 g2 st).out } := by
  unfold emitJoined
  split <;> rfl

theorem Ready.emitJoined (h : Ready opt st) (g1 g2 : Group) :
    Ready opt (emitJoined opt g1 g2 st) := by
  rw [emitJoined_eq]
  exact ⟨h.orderError,h.err,h.good1,h.good2,h.idx1,h.idx2⟩

/-- A key before that of the group is before all keys that are left. -/
theorem Cursor.lt {g : Group} (h : Cursor opt f (some g) lines)
    {k : List ℕ} (hk : k<keyValue opt g.key) : ∀l∈lines,k<value opt f.idx l := by
  obtain ⟨-,rfl,hslice,hrest⟩ := h
  refine forall_mem_append.mpr ⟨fun l hl => ?_,fun l hl => hk.trans (hrest l hl)⟩
  rw [hslice l hl]
  exact hk

def joinLeft (opt : Options) (lines1 lines2 : List Bytes) : List Bytes :=
  join (rows opt) (value opt 0) (value opt 1) lines1 lines2

section
variable {g1 g2 : Group} {lines1 lines2 : List Bytes}

section
variable (hspecs : opt.specs=[]) (h : Ready opt st)
include hspecs h

/-- A group of the first file without a partner is written, and its lines are left behind. -/
theorem advance1 (c1 : Cursor opt st.f1 (some g1) lines1) :
    ∃g st' rest,next1 opt (emitUnpaired opt st.f1 g1 st)=(g,st') ∧ Ready opt st' ∧
      st'.f2=st.f2 ∧ Cursor opt st'.f1 g rest ∧ rest.length<lines1.length ∧
      ∀lines2,(∀l∈lines2,keyValue opt g1.key<value opt 1 l)→
        st'.out++(joinLeft opt rest lines2).flatten =
          st.out++(joinLeft opt lines1 lines2).flatten := by
  obtain ⟨g,st',heq,hready,hout,hf2,hcursor⟩ := next1_spec (h.emitUnpaired st.f1 g1)
  obtain ⟨hne,rfl,hkey,hrest⟩ := c1
  rw [h.idx1] at hkey hrest
  have hlen := length_pos_iff.mpr hne
  refine ⟨g,st',_,heq,hready,hf2,hcursor,?_,fun lines2 hlt => ?_⟩
  · simp only [length_append,emitUnpaired]
    omega
  · have hjoin : joinLeft opt _ ([]++lines2)=_ := join_append hkey (by simp) hrest hlt (.inl hne)
    rw [hout,emitUnpaired_out hspecs,h.idx1,←nil_append lines2,hjoin]
    simp [Output.block,rows,joinLeft,emitUnpaired]

theorem advance2 (c2 : Cursor opt st.f2 (some g2) lines2) :
    ∃g st' rest,next2 opt (emitUnpaired opt st.f2 g2 st)=(g,st') ∧ Ready opt st' ∧
      st'.f1=st.f1 ∧ Cursor opt st'.f2 g rest ∧ rest.length<lines2.length ∧
      ∀lines1,(∀l∈lines1,keyValue opt g2.key<value opt 0 l)→
        st'.out++(joinLeft opt lines1 rest).flatten =
          st.out++(joinLeft opt lines1 lines2).flatten := by
  obtain ⟨g,st',heq,hready,hout,hf1,hcursor⟩ := next2_spec (h.emitUnpaired st.f2 g2)
  obtain ⟨hne,rfl,hkey,hrest⟩ := c2
  rw [h.idx2] at hkey hrest
  have hlen := length_pos_iff.mpr hne
  refine ⟨g,st',_,heq,hready,hf1,hcursor,?_,fun lines1 hlt => ?_⟩
  · simp only [length_append,emitUnpaired]
    omega
  · have hjoin : joinLeft opt ([]++lines1) _=_ := join_append (by simp) hkey hlt hrest (.inr hne)
    rw [hout,emitUnpaired_out hspecs,h.idx2,←nil_append lines1,hjoin]
    simp [Output.block,rows,joinLeft,emitUnpaired]

theorem advance_both
    (c1 : Cursor opt st.f1 (some g1) lines1) (c2 : Cursor opt st.f2 (some g2) lines2)
    (hkeys : keyValue opt g1.key=keyValue opt g2.key) :
    ∃g g' st' st'' rest1 rest2,next1 opt (emitJoined opt g1 g2 st)=(g,st') ∧
      next2 opt st'=(g',st'') ∧ Ready opt st'' ∧ Cursor opt st''.f1 g rest1 ∧
      Cursor opt st''.f2 g' rest2 ∧ rest1.length<lines1.length ∧ rest2.length<lines2.length ∧
      st''.out++(joinLeft opt rest1 rest2).flatten =
        st.out++(joinLeft opt lines1 lines2).flatten := by
  obtain ⟨g,st',heq,hready,hout,hf2,hcursor⟩ := next1_spec (h.emitJoined g1 g2)
  obtain ⟨g',st'',heq',hready',hout',hf1',hcursor'⟩ := next2_spec hready
  have hsame : (emitJoined opt g1 g2 st).f1=st.f1 ∧ (emitJoined opt g1 g2 st).f2=st.f2 := by
    rw [emitJoined_eq]
    exact ⟨rfl,rfl⟩
  rw [hsame.1] at hcursor
  rw [hf2,hsame.2] at hcursor'
  obtain ⟨hne1,rfl,hkey1,hrest1⟩ := c1
  obtain ⟨hne2,rfl,hkey2,hrest2⟩ := c2
  rw [h.idx1,hkeys] at hkey1 hrest1
  rw [h.idx2] at hkey2 hrest2
  have hlen1 := length_pos_iff.mpr hne1
  have hlen2 := length_pos_iff.mpr hne2
  refine ⟨g,g',st',st'',_,_,heq,heq',hready',hf1' ▸ hcursor,hcursor',?_,?_,?_⟩
  · rw [length_append]
    omega
  · rw [length_append]
    omega
  · have hjoin : joinLeft opt _ _=_ := join_append hkey1 hkey2 hrest1 hrest2 (.inl hne1)
    rw [hout',hout,emitJoined_out hspecs,hjoin]
    simp [Output.block,rows,joinLeft,hne1,hne2]

end

end

theorem mergeLoop_spec (hspecs : opt.specs=[]) {fuel : ℕ} {g1 g2 : Option Group}
    {lines1 lines2 : List Bytes} (hfuel : lines1.length+lines2.length<fuel) (h : Ready opt st)
    (c1 : Cursor opt st.f1 g1 lines1) (c2 : Cursor opt st.f2 g2 lines2) :
    ∃st',mergeLoop opt fuel g1 g2 st=some st' ∧ Ready opt st' ∧
      st'.out=st.out++(joinLeft opt lines1 lines2).flatten := by
  induction fuel generalizing g1 g2 st lines1 lines2 with
  | zero => omega
  | succ fuel ih =>
    have hok := h.orderError
    match g1,g2 with
    | some g1,some g2 =>
      rcases lt_trichotomy (keyValue opt g1.key) (keyValue opt g2.key) with hlt | heq | hgt
      · obtain ⟨g,st',rest,hnext,hready,hf2,hcursor,hlen,hjoin⟩ := advance1 hspecs h c1
        have hd : compareKeys opt g1.key g2.key<0 := by
          rw [compareKeys_eq,order_of_lt hlt]
          decide
        obtain ⟨st'',hrun,hready',hout⟩ := ih (by omega) hready hcursor (hf2 ▸ c2)
        refine ⟨st'',?_,hready',hout.trans (hjoin lines2 (h.idx2 ▸ c2.lt hlt))⟩
        simp [mergeLoop,hok,hd,hnext,hrun]
      · obtain ⟨g,g',st',st'',rest1,rest2,hnext,hnext',hready,hcursor,hcursor',hlen,hlen',
          hjoin⟩ := advance_both hspecs h c1 c2 heq
        have hd : compareKeys opt g1.key g2.key=0 := by rw [compareKeys_eq,order_eq_zero,heq]
        obtain ⟨end',hrun,hready',hout⟩ := ih (by omega) hready hcursor hcursor'
        refine ⟨end',?_,hready',hout.trans hjoin⟩
        simp [mergeLoop,hok,hd,hnext,hnext',hrun]
      · obtain ⟨g,st',rest,hnext,hready,hf1,hcursor,hlen,hjoin⟩ := advance2 hspecs h c2
        have hd : compareKeys opt g1.key g2.key=1 := by rw [compareKeys_eq,order_of_gt hgt]
        obtain ⟨st'',hrun,hready',hout⟩ := ih (by omega) hready (hf1 ▸ c1) hcursor
        refine ⟨st'',?_,hready',hout.trans (hjoin lines1 (h.idx1 ▸ c1.lt hgt))⟩
        simp [mergeLoop,hok,hd,hnext,hrun]
    | some g1,none =>
      obtain rfl : lines2=[] := c2
      obtain ⟨g,st',rest,hnext,hready,hf2,hcursor,hlen,hjoin⟩ := advance1 hspecs h c1
      have hend : Cursor opt st'.f2 none [] := rfl
      obtain ⟨st'',hrun,hready',hout⟩ := ih (by omega) hready hcursor hend
      refine ⟨st'',?_,hready',hout.trans (hjoin [] (by simp))⟩
      simp [mergeLoop,hok,hnext,hrun]
    | none,some g2 =>
      obtain rfl : lines1=[] := c1
      obtain ⟨g,st',rest,hnext,hready,hf1,hcursor,hlen,hjoin⟩ := advance2 hspecs h c2
      have hend : Cursor opt st'.f1 none [] := rfl
      obtain ⟨st'',hrun,hready',hout⟩ := ih (by omega) hready hend hcursor
      refine ⟨st'',?_,hready',hout.trans (hjoin [] (by simp))⟩
      simp [mergeLoop,hok,hnext,hrun]
    | none,none =>
      obtain rfl : lines1=[] := c1
      obtain rfl : lines2=[] := c2
      refine ⟨st,?_,h,by simp [joinLeft]⟩
      simp [mergeLoop]

/-- On sorted files, without `-o` and `--header`, the join is written without a diagnostic. -/
theorem runJoin_eq {opt : Options} (hspecs : opt.specs=[]) (hheader : opt.header=false)
    (name1 name2 : Bytes) {data1 data2 : Bytes} (hsorted1 : Sorted opt 0 (inputLines opt data1))
    (hsorted2 : Sorted opt 1 (inputLines opt data2)) : runJoin opt name1 name2 data1 data2 =
      some ⟨(join (rows opt) (value opt 0) (value opt 1) (inputLines opt data1)
        (inputLines opt data2)).flatten,[],0⟩ := by
  set lines1 := inputLines opt data1
  set lines2 := inputLines opt data2
  have hready : Ready opt
      { sh := {},f1 := { name := name1,idx := 0,lines := lines1 },
        f2 := { name := name2,idx := 1,lines := lines2 },out := [] } :=
    ⟨rfl,rfl,⟨hsorted1.pairwise,rfl⟩,⟨hsorted2.pairwise,rfl⟩,rfl,rfl⟩
  obtain ⟨g1,st1,heq1,hready1,hout1,hf2,c1⟩ := next1_spec hready
  obtain ⟨g2,st2,heq2,hready2,hout2,hf1,c2⟩ := next2_spec hready1
  rw [hf2] at c2
  rw [←hf1] at c1
  obtain ⟨st',hrun,hready',hout⟩ := mergeLoop_spec hspecs
    (Nat.lt_succ_self (lines1.length+lines2.length)) hready2 c1 c2
  have hfinish : finish st'=⟨(joinLeft opt lines1 lines2).flatten,[],0⟩ := by
    rw [finish,hready'.orderError,hready'.good1.warned,hready'.good2.warned,hready'.err,hout,
      hout2,hout1]
    simp
  simp only [runJoin,start,hheader,Bool.false_eq_true,if_false,drop_zero]
  rw [heq1]
  rw [heq2]
  exact (congrArg (Option.map finish) hrun).trans (congrArg some hfinish)

def keepFirst : Options where
  field _ := 0
  tab := .blanks
  printU idx := idx=0
  suppressed _ := false
  ignoreCase := false
  checkOrder := false
  nocheckOrder := false
  header := false
  zeroTerminated := false
  specs := []
  empty := []

theorem runJoin_keepFirst :
    runJoin keepFirst (ascii "f") (ascii "g") (ascii "a 1\nb 2\nb 3\n") (ascii "b x\nc y\n") =
      some ⟨(join (rows keepFirst) (value keepFirst 0) (value keepFirst 1)
        (inputLines keepFirst (ascii "a 1\nb 2\nb 3\n"))
        (inputLines keepFirst (ascii "b x\nc y\n"))).flatten,[],0⟩ ∧
    runJoin keepFirst (ascii "f") (ascii "g") (ascii "a 1\nb 2\nb 3\n") (ascii "b x\nc y\n") =
      some ⟨ascii "a 1\nb 2 x\nb 3 x\n",[],0⟩ := by
  refine ⟨runJoin_eq rfl rfl _ _ ?_ ?_,by decide⟩
  · unfold Sorted
    decide
  · unfold Sorted
    decide

end Coreutils.JoinFiles
