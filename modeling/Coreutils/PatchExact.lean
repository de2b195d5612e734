import Coreutils.PatchApply

/-!
# Hunks that fit exactly

Hunks fit a file exactly when, in order, they state its lines at the places they name. `Apply` then
places every hunk where it says and replaces each old side by its new side.
-/

namespace Coreutils.PatchExact
open List GoText PatchParse PatchApply

theorem seq_reverseHunk (h : Hunk) : oldSeq (reverseHunk h).lines=newSeq h.lines ∧
    newSeq (reverseHunk h).lines=oldSeq h.lines := by
  simp only [reverseHunk]
  induction h.lines with
  | nil => exact ⟨rfl,rfl⟩
  | cons l ls ih =>
    obtain ⟨kind,text,noEOL⟩ := l
    cases kind <;> simp_all [oldSeq,newSeq]

theorem lineAt?_append (A B : List Bytes) (t : Bytes) : lineAt? (A++t::B) A.length=some t := by
  simp [lineAt?]

theorem sameLine_self (ws : Bool) (t : Bytes) : sameLine ws t t=true := by simp [sameLine]

theorem matchAt_exact (ws : Bool) (A want B : List Bytes) :
    matchAt (A++(want++B)) ws want A.length=some true := by
  induction want generalizing A with
  | nil => rfl
  | cons w want ih =>
    have hnext := ih (A++[w])
    rw [matchAt,cons_append,lineAt?_append]
    simpa [sameLine_self] using hnext

theorem searchWithin_exact {target A want B : List Bytes} (ws : Bool) (h : target=A++(want++B)) :
    searchWithin target want A.length 0 (target.length-want.length) ws =
      some (some (A.length : ℤ)) := by
  have hlen := congrArg length h
  simp only [length_append] at hlen
  have hclamp : clampInt A.length 0 ((target.length : ℤ)-want.length)=A.length := by
    rw [clampInt,if_neg (by omega),if_neg (by omega)]
  unfold searchWithin
  simp only [lt_self_iff_false,if_false]
  rw [if_neg (by omega)]
  by_cases hw : want=[]
  · rw [if_pos hw,hclamp]
  · have hmatch := matchAt_exact ws A want B
    rw [←h] at hmatch
    rw [if_neg hw,hclamp,searchOrderWithin,firstMatch,hmatch]
    rfl

variable {oldLines A B : List Bytes} {oldLines : List Bytes}

theorem locateHunk_exact {h : Hunk} (opts : ApplyOptions)
    (hfit : oldLines=A++(oldSeq h.lines++B)) (hcount : h.oldCount=(oldSeq h.lines).length)
    (hn : (oldLines.length : ℤ)<2^62) :
    locateHunk oldLines h A.length opts=some ((A.length : ℤ),0,.hunkApplied) := by
  have hlen := congrArg List.length hfit
  simp only [length_append] at hlen
  have hplace : placeAt oldLines h A.length opts.ignoreWhitespace 0 0 =
      some (some (A.length : ℤ)) := by
    have hs := searchWithin_exact opts.ignoreWhitespace hfit
    simp only [placeAt,Nat.sub_zero,take_length,drop_zero,Nat.cast_zero,add_zero,sub_zero,hcount]
    rw [wrap64_of_range (by omega) (by omega),
      wrap64_of_range (x := (oldLines.length : ℤ)-_) (by omega) (by omega),
      wrap64_of_range (by omega) (by omega),hs]
    rfl
  have hloop : fuzzLoop oldLines h A.length opts (h.lines.length+2) 0 =
      some (some ((A.length : ℤ),0,.hunkApplied)) := by
    rw [fuzzLoop]
    simp [hplace]
  rw [locateHunk,hloop]
  rfl

def newLines (lines : List HunkLine) : List HunkLine :=
  lines.filter (fun l => l.kind != .lineDelete)

@[simp] theorem newLines_append (ls ls' : List HunkLine) :
    newLines (ls++ls')=newLines ls++newLines ls' := by
  simp [newLines]

theorem newSeq_eq (ls : List HunkLine) : newSeq ls=(newLines ls).map (·.text) := rfl

def lastNoEOL (lines : List HunkLine) : Option Bool := (newLines lines).getLast?.map (·.noEOL)

theorem lastNoEOL_cons {l : HunkLine} (h : l.kind≠.lineDelete) (lines : List HunkLine) :
    lastNoEOL (l::lines)=some ((lastNoEOL lines).getD l.noEOL) := by
  have hnew : newLines (l::lines)=l::newLines lines := by simp [newLines,h]
  rw [lastNoEOL,lastNoEOL,hnew,getLast?_cons]
  cases (newLines lines).getLast? <;> rfl

theorem replaceFrom_exact (lines : List HunkLine) (r : Replacement)
    (hfit : oldLines=A++(oldSeq lines++B)) : replaceFrom oldLines lines A.length r =
      some ⟨r.repl++newSeq lines,(lastNoEOL lines).getD r.lastNoEOL,
        r.sawAny || !(newLines lines).isEmpty⟩ := by
  induction lines generalizing A r with
  | nil => simp [replaceFrom,newSeq,lastNoEOL,newLines]
  | cons l lines ih =>
    obtain ⟨kind,text,noEOL⟩ := l
    have hA : ∀t,(A.length : ℤ)+1=((A++[t]).length : ℕ) := by intro t; simp
    cases kind with
    | lineContext =>
      have hfit' : oldLines=(A++[text])++(oldSeq lines++B) := by rw [hfit]; simp [oldSeq]
      have hget : lineAt? oldLines A.length=some text := by
        rw [hfit]
        simp [oldSeq,lineAt?]
      simp only [replaceFrom,hget,Option.bind_eq_bind,Option.bind_some]
      rw [hA text,ih _ hfit',lastNoEOL_cons (by simp)]
      simp [newSeq,newLines]
    | lineDelete =>
      have hfit' : oldLines=(A++[text])++(oldSeq lines++B) := by rw [hfit]; simp [oldSeq]
      simp only [replaceFrom]
      rw [hA text,ih _ hfit']
      simp [newSeq,lastNoEOL,newLines]
    | lineAdd =>
      have hfit' : oldLines=A++(oldSeq lines++B) := by rw [hfit]; simp [oldSeq]
      simp only [replaceFrom]
      rw [ih _ hfit',lastNoEOL_cons (by simp)]
      simp [newSeq,newLines]

theorem slice?_block (A B C : List Bytes) :
    slice? (A++(B++C)) A.length ((A.length+B.length : ℕ) : ℤ)=some B := by
  rw [slice?,if_pos (by simp),Int.toNat_natCast,Int.toNat_natCast,←append_assoc,
    take_left' (by simp),drop_left]

theorem appendVerbatim_block {oldLines A B C : List Bytes} (e : Bool) (st : State)
    (h : oldLines=A++(B++C)) : appendVerbatim oldLines e A.length ((A.length+B.length : ℕ) : ℤ) st =
      some { st with
        out := st.out++B
        finalNoEOL := if B=[] then st.finalNoEOL else e && C.isEmpty } := by
  by_cases hB : B=[]
  · subst hB
    simp [appendVerbatim]
  have hpos := length_pos_iff.mpr hB
  have hend : (((A.length+B.length : ℕ) : ℤ) == ((oldLines.length : ℕ) : ℤ))=C.isEmpty := by
    rw [h,Bool.eq_iff_iff]
    simp only [List.length_append,beq_iff_eq,List.isEmpty_iff]
    rw [←List.length_eq_zero_iff]
    omega
  rw [appendVerbatim,if_neg (by omega),if_neg hB,hend,h,slice?_block]
  rfl

def exactReport (idx : ℕ) (h : Hunk) : HunkReport :=
  { index := idx+1,outcome := .hunkApplied,fuzzUsed := 0,placed := h.oldStart }

theorem applyHunk_exact {oldLines A skip B : List Bytes} (e : Bool) (opts : ApplyOptions)
    (idx : ℕ) {h : Hunk} {st : State} (hn : (oldLines.length : ℤ)<2^62)
    (hfit : oldLines=A++(skip++(oldSeq h.lines++B)))
    (hstart : h.oldStart=(A.length+skip.length : ℕ))
    (hcount : h.oldCount=(oldSeq h.lines).length) (hcur : st.cur=A.length) (hoff : st.offset=0) :
    ∃st',applyHunk oldLines e opts idx h st=some st' ∧ st'.out=st.out++(skip++newSeq h.lines) ∧
      st'.cur=(A.length+(skip.length+(oldSeq h.lines).length) : ℕ) ∧ st'.offset=0 ∧
      st'.reports=st.reports++[exactReport idx h] ∧ st'.rejects=st.rejects ∧
      (B=[]→st'.finalNoEOL=(lastNoEOL h.lines).getD false) := by
  have hlen := congrArg length hfit
  simp only [length_append] at hlen
  have hfit' : oldLines=(A++skip)++(oldSeq h.lines++B) := by rw [hfit]; simp
  have hloc := locateHunk_exact opts hfit' hcount hn
  rw [length_append,←hstart] at hloc
  have hexp : wrap64 (h.oldStart+st.offset)=h.oldStart := by
    rw [hoff,add_zero,wrap64_of_range (by omega) (by omega)]
  have happ := appendVerbatim_block e st hfit
  rw [←hcur,←hstart] at happ
  have hrep := replaceFrom_exact h.lines ⟨[],e,false⟩ hfit'
  rw [length_append,←hstart] at hrep
  have hcur' : wrap64 (h.oldStart+h.oldCount) =
      ((A.length+(skip.length+(oldSeq h.lines).length) : ℕ) : ℤ) := by
    rw [hstart,hcount,wrap64_of_range (by omega) (by omega)]
    push_cast
    ring
  have hoff' : wrap64 (h.oldStart-h.oldStart)=0 := by simp [wrap64]
  rw [applyHunk]
  simp only [hexp,hloc,Option.bind_eq_bind,Option.bind_some]
  rw [if_neg (by rw [hstart]; push_cast; omega),happ]
  simp only [Option.bind_some,buildReplacement,hrep,hcur',hoff',Option.pure_def]
  refine ⟨_,rfl,by simp,rfl,rfl,rfl,rfl,?_⟩
  intro hB
  have hend : ((A.length+(skip.length+(oldSeq h.lines).length) : ℕ) : ℤ) =
      oldLines.length := by
    rw [hlen,hB]
    simp
  rw [hend]
  cases hlast : newLines h.lines with
  | nil => simp [lastNoEOL,hlast]
  | cons l ls => simp [lastNoEOL,hlast,getLast?_cons]

/-- Hunks that state the lines of a file from line `i` on: `old` is the rest of the file, `new` what
they make of it and `tail` the lines after the last hunk. -/
inductive Fits : ℕ→List Bytes→List Hunk→List Bytes→List Bytes→Prop
  | nil (i : ℕ) (tail : List Bytes) : Fits i tail [] tail tail
  | cons {i : ℕ} {skip rest new tail : List Bytes} {h : Hunk} {hs : List Hunk}
      (hstart : h.oldStart=(i+skip.length : ℕ))
      (hcount : h.oldCount=(oldSeq h.lines).length)
      (hrest : Fits (i+(skip.length+(oldSeq h.lines).length)) rest hs new tail) :
      Fits i (skip++(oldSeq h.lines++rest)) (h::hs) (skip++(newSeq h.lines++new)) tail

def exactReports : ℕ→List Hunk→List HunkReport
  | _,[] => []
  | idx,h::hs => exactReport idx h::exactReports (idx+1) hs

theorem applyHunks_fits (e : Bool) (opts : ApplyOptions) {i : ℕ}
    {old new tail : List Bytes} {hs : List Hunk} (hfits : Fits i old hs new tail)
    (hn : (oldLines.length : ℤ)<2^62) (A : List Bytes) (hA : A.length=i)
    (hold : oldLines=A++old) (idx : ℕ) (st : State) (hcur : st.cur=i) (hoff : st.offset=0) :
    ∃st' B,applyHunks oldLines e opts idx hs st=some st' ∧ st.out++new=st'.out++tail ∧
      oldLines=B++tail ∧ st'.cur=B.length ∧
      st'.reports=st.reports++exactReports idx hs ∧ st'.rejects=st.rejects ∧
      (tail=[]→st'.finalNoEOL = match hs.getLast? with
        | none => st.finalNoEOL
        | some h => (lastNoEOL h.lines).getD false) := by
  induction hfits generalizing A idx st with
  | nil i tail =>
    exact ⟨st,A,rfl,rfl,hold,by rw [hcur,hA],by simp [exactReports],rfl,fun _ => rfl⟩
  | @cons i skip rest new tail h hs hstart hcount hrest ih =>
    subst hA
    obtain ⟨st₁,happly,hout,hcur₁,hoff₁,hrep,hrej,hflag⟩ :=
      applyHunk_exact e opts idx hn hold hstart hcount hcur hoff
    obtain ⟨st₂,B,hrun,hout₂,hB,hcur₂,hrep₂,hrej₂,hflag₂⟩ :=
      ih (A++(skip++oldSeq h.lines)) (by simp) (by rw [hold]; simp) (idx+1) st₁ hcur₁ hoff₁
    refine ⟨st₂,B,?_,?_,hB,hcur₂,?_,hrej₂.trans hrej,?_⟩
    · simp [applyHunks,happly,hrun]
    · rw [←hout₂,hout]
      simp
    · rw [hrep₂,hrep]
      simp [exactReports]
    · intro htail
      rw [hflag₂ htail,getLast?_cons]
      cases hlast : hs.getLast? with
      | some h' => rfl
      | none =>
        obtain rfl : hs=[] := by simpa using hlast
        cases hrest
        exact hflag htail

/-- The final flag `Apply` computes for hunks that fit, with `tail` after the last one. -/
def fitFlag (e : Bool) (hs : List Hunk) (tail : List Bytes) : Bool :=
  if tail=[] then
    match hs.getLast? with
    | none => e
    | some h => (lastNoEOL h.lines).getD false
  else e

/-- `Apply` on hunks that fit as attempted: all are applied where they say, none is rejected. -/
theorem apply_fits (e : Bool) {opts : ApplyOptions}
    {new tail : List Bytes} {hs : List Hunk} (hfits : Fits 0 oldLines (orient opts hs) new tail)
    (hn : (oldLines.length : ℤ)<2^62) :
    apply oldLines e hs opts=some ⟨new,fitFlag e (orient opts hs) tail,
      exactReports 0 (orient opts hs),[]⟩ := by
  obtain ⟨st,B,hrun,hout,hB,hcur,hrep,hrej,hflag⟩ := applyHunks_fits e opts hfits
    hn [] rfl rfl 0 { finalNoEOL := e } rfl rfl
  have happ := @appendVerbatim_block oldLines B tail [] e st (by simpa using hB)
  have hend : ((B.length+tail.length : ℕ) : ℤ)=oldLines.length := by rw [hB]; simp
  rw [hend,←hcur] at happ
  simp only [nil_append] at hout hrep
  have hfinal : (if tail=[] then st.finalNoEOL else e && ([] : List Bytes).isEmpty) =
      fitFlag e (orient opts hs) tail := by
    rw [fitFlag]
    split_ifs with htail
    · rw [hflag htail]
    · simp
  simp only [apply,hrun,Option.bind_eq_bind,Option.bind_some,happ,Option.pure_def,←hout,hrep,
    hrej,hfinal]

end Coreutils.PatchExact
