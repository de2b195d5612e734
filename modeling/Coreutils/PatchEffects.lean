import Coreutils.PatchPlacement
import Coreutils.Rewrites

/-!
# What applying a patch changes

Whatever becomes of its hunks, `Apply` copies the target from left to right and puts the replacement
of a hunk it reports as applied in the place of that hunk's old lines, and nothing else.
-/

namespace Coreutils.PatchEffects
open List GoText PatchParse PatchApply PatchExact PatchPlacement Rewrites

/-- The header counts the lines of the two sides. Every slice in memory meets the bound. -/
structure Counted (h : Hunk) : Prop where
  old : h.oldCount=(oldSeq h.lines).length
  new : h.newCount=(newSeq h.lines).length
  small : h.lines.length<2^62

theorem Counted.reverse {h : Hunk} (hc : Counted h) : Counted (reverseHunk h) where
  old := by rw [(seq_reverseHunk _).1]; exact hc.new
  new := by rw [(seq_reverseHunk _).2]; exact hc.old
  small := by simpa [reverseHunk] using hc.small

theorem counted_orient {hunks : List Hunk} (hc : ∀h∈hunks,Counted h) (opts : ApplyOptions) :
    ∀h∈orient opts hunks,Counted h := by
  intro h hh
  rw [orient] at hh
  split at hh
  · obtain ⟨h,hmem,rfl⟩ := mem_map.mp hh
    exact (hc h hmem).reverse
  · exact hc h hh

def contextAndAdded (old : List Bytes) : ℕ→List HunkLine→List Bytes
  | _,[] => []
  | i,l::ls =>
    match l.kind with
    | .lineContext => old[i]?.toList++contextAndAdded old (i+1) ls
    | .lineDelete => contextAndAdded old (i+1) ls
    | .lineAdd => l.text::contextAndAdded old i ls

def isApplied (rep : HunkReport) : Bool :=
  rep.outcome == .hunkApplied || rep.outcome == .hunkAppliedFuzzy

def reportedEdit (old : List Bytes) (h : Hunk) (rep : HunkReport) : Option (Edit Bytes) :=
  if isApplied rep then
    some ⟨rep.placed.toNat,h.oldCount.toNat,contextAndAdded old rep.placed.toNat h.lines⟩
  else none

def reportedEdits (old : List Bytes) (hs : List Hunk) (reps : List HunkReport) :
    List (Edit Bytes) :=
  (hs.zip reps).filterMap fun p => reportedEdit old p.1 p.2

variable {old : List Bytes}

theorem replaceFrom_spec (lines : List HunkLine) {i : ℕ} (r : Replacement)
    (hfit : i+(oldSeq lines).length≤old.length) : ∃r',replaceFrom old lines i r=some r' ∧
      r'.repl=r.repl++contextAndAdded old i lines := by
  induction lines generalizing i r with
  | nil => exact ⟨r,rfl,by simp [contextAndAdded]⟩
  | cons l lines ih =>
    obtain ⟨kind,text,noEOL⟩ := l
    cases kind with
    | lineContext =>
      have hfit' : i+1+(oldSeq lines).length≤old.length := by
        simp [oldSeq] at hfit ⊢
        omega
      have hi : i<old.length := by omega
      have hget : lineAt? old i=some old[i] := by simp [lineAt?]
      obtain ⟨r',hr',hrepl⟩ := ih ⟨r.repl++[old[i]],noEOL,true⟩ hfit'
      refine ⟨r',?_,?_⟩
      · simp only [replaceFrom,hget]
        exact_mod_cast hr'
      · rw [hrepl]
        simp [contextAndAdded,hi]
    | lineDelete =>
      have hfit' : i+1+(oldSeq lines).length≤old.length := by
        simp [oldSeq] at hfit ⊢
        omega
      obtain ⟨r',hr',hrepl⟩ := ih r hfit'
      refine ⟨r',?_,hrepl⟩
      exact_mod_cast hr'
    | lineAdd =>
      have hfit' : i+(oldSeq lines).length≤old.length := by simpa [oldSeq] using hfit
      obtain ⟨r',hr',hrepl⟩ := ih ⟨r.repl++[text],noEOL,true⟩ hfit'
      refine ⟨r',hr',?_⟩
      rw [hrepl]
      simp [contextAndAdded]

/-- The output is the target up to line `c` with the edits; without one it ends as the target. -/
structure Progress (old : List Bytes) (e : Bool) (es : List (Edit Bytes)) (c : ℕ) (st : State) :
    Prop where
  within : Within 0 c es
  le : c≤old.length
  out : st.out=between old c 0 es
  flag : es=[]→c=old.length→st.finalNoEOL=e

section
variable {old : List Bytes} {e : Bool} {es : List (Edit Bytes)} {c : ℕ} {st : State}

theorem Progress.congr {st' : State} (h : Progress old e es c st) (hout : st'.out=st.out)
    (hflag : st'.finalNoEOL=st.finalNoEOL) : Progress old e es c st' :=
  ⟨h.within,h.le,hout.trans h.out,fun hes hc => hflag.trans (h.flag hes hc)⟩

/-- Lines are copied on to a later place. -/
theorem Progress.copy (h : Progress old e es c st) {j : ℕ} (hcj : c≤j) (hj : j≤old.length) :
    ∃st',appendVerbatim old e c j st=some st' ∧ Progress old e es j st' ∧
      st'.reports=st.reports := by
  rw [appendVerbatim]
  split
  · obtain rfl : c=j := by omega
    exact ⟨st,rfl,h,rfl⟩
  rw [slice?,if_pos ⟨by omega,by omega,by omega⟩,Option.bind_eq_bind]
  refine ⟨_,rfl,⟨h.within.mono hcj,hj,?_,?_⟩,rfl⟩
  · simp [between_extend h.within hcj hj,h.out]
  · rintro - rfl
    simp

/-- A hunk's replacement is put in. -/
theorem Progress.replace (h : Progress old e es c st) {d : Edit Bytes} (hd : d.start=c)
    (hstop : d.stop≤old.length) {st' : State} (hout : st'.out=st.out++d.text) :
    Progress old e (es++[d]) d.stop st' where
  within := h.within.concat (le_of_eq hd.symm)
  le := hstop
  out := by rw [hout,h.out,between_concat,hd]
  flag := by simp

end

structure Reports (idx : ℕ) (rep : HunkReport) : Prop where
  index : rep.index=idx+1
  placed : 0≤rep.placed

variable {es : List (Edit Bytes)} {st : State} {c : ℕ}

/-- A rejected hunk leaves the target as it is up to some later line. -/
theorem reject_progress {e : Bool} (idx : ℕ) (h : Hunk) (hst : Progress old e es c st) :
    Progress old e (es++(reportedEdit old h
      { index := idx+1,outcome := .hunkFailed }).toList) c ({ st with cur := c }.reject idx h) := by
  have hnone : reportedEdit old h { index := idx+1,outcome := .hunkFailed }=none := rfl
  rw [hnone,Option.toList_none,append_nil]
  exact hst.congr rfl rfl

section
variable {old : List Bytes} (hold : old.length<2^62) (e : Bool) (opts : ApplyOptions)
include hold

/-- One turn of the loop. -/
theorem applyHunk_progress (idx : ℕ) {h : Hunk} (hc : Counted h) (hst : Progress old e es c st)
    (hcur : st.cur=c) : ∃st' rep c',applyHunk old e opts idx h st=some st' ∧
      st'.reports=st.reports++[rep] ∧ Reports idx rep ∧
      Progress old e (es++(reportedEdit old h rep).toList) c' st' ∧ st'.cur=c' := by
  have hold' : (old.length : ℤ)<2^62 := by exact_mod_cast hold
  have hsmall : (h.lines.length : ℤ)<2^62 := by exact_mod_cast hc.small
  have hlen := length_oldSeq_le h.lines
  have hcount := hc.old
  have hnew := hc.new
  have hle := hst.le
  obtain ⟨m,f,o,hloc,hm,hspec⟩ := locateHunk_spec (h := h) hold' (by omega)
    (wrap64 (h.oldStart+st.offset)) opts
  obtain ⟨m,rfl⟩ := Int.eq_ofNat_of_zero_le hm
  rw [applyHunk,hloc]
  simp only [Option.bind_eq_bind,Option.bind_some,hcur]
  have hfailed : Reports idx { index := idx+1,outcome := .hunkFailed } := ⟨rfl,le_refl _⟩
  cases o with
  | hunkFailed =>
    by_cases hbehind : (m : ℤ)<c
    · simp only [if_pos hbehind]
      obtain ⟨st₁,h₁,hst₁,hrep₁⟩ := hst.copy (le_refl c) hle
      obtain ⟨st₂,h₂,hst₂,hrep₂⟩ := hst₁.copy (le_refl c) hle
      rw [h₁,Option.bind_some,h₂]
      exact ⟨_,_,c,rfl,by simp [State.reject,hrep₂,hrep₁],hfailed,reject_progress idx h hst₂,rfl⟩
    · simp only [if_neg hbehind]
      rw [wrap64_of_range (by omega) (by omega),hcount]
      obtain ⟨st₁,h₁,hst₁,hrep₁⟩ := hst.copy (j := m) (by omega) (by omega)
      obtain ⟨j,hj⟩ : ∃j : ℕ,min ((m : ℤ)+(oldSeq h.lines).length) (old.length : ℤ)=j :=
        ⟨min (m+(oldSeq h.lines).length) old.length,by omega⟩
      obtain ⟨st₂,h₂,hst₂,hrep₂⟩ := hst₁.copy (j := j) (by omega) (by omega)
      rw [h₁,Option.bind_some,hj,h₂]
      exact ⟨_,_,j,rfl,by simp [State.reject,hrep₂,hrep₁],hfailed,reject_progress idx h hst₂,rfl⟩
  | hunkAlreadyApplied =>
    simp only at hspec ⊢
    split
    · have hsame : st={ st with cur := (c : ℤ) } := by rw [←hcur]
      refine ⟨_,_,c,rfl,rfl,hfailed,?_,hcur⟩
      conv => rhs; rw [hsame]
      exact reject_progress idx h hst
    · rw [hnew,wrap64_of_range (by omega) (by omega)]
      obtain ⟨st₁,h₁,hst₁,hrep₁⟩ := hst.copy (j := m) (by omega) (by omega)
      obtain ⟨st₂,h₂,hst₂,hrep₂⟩ := hst₁.copy (j := m+(newSeq h.lines).length) (by omega)
        (by omega)
      push_cast at h₂
      rw [h₁,Option.bind_some,h₂]
      refine ⟨_,{ index := idx+1,outcome := .hunkAlreadyApplied,placed := m },_,rfl,
        by simp [hrep₂,hrep₁],⟨rfl,by simp⟩,?_,by push_cast; rfl⟩
      have hnone : reportedEdit old h
          { index := idx+1,outcome := .hunkAlreadyApplied,placed := m }=none := rfl
      rw [hnone,Option.toList_none,append_nil]
      exact hst₂.congr rfl rfl
  | hunkApplied | hunkAppliedFuzzy =>
    have hfits := hspec.fits (by omega)
    simp only
    rw [hcount,wrap64_of_range (by omega) (by omega)]
    split
    · obtain ⟨j,hj⟩ : ∃j : ℕ,max (min ((m : ℤ)+(oldSeq h.lines).length) (old.length : ℤ)) c=j :=
        ⟨max (min (m+(oldSeq h.lines).length) old.length) c,by omega⟩
      obtain ⟨st₁,h₁,hst₁,hrep₁⟩ := hst.copy (j := j) (by omega) (by omega)
      rw [hj,h₁]
      exact ⟨_,_,j,rfl,by simp [State.reject,hrep₁],hfailed,reject_progress idx h hst₁,rfl⟩
    · obtain ⟨st₁,h₁,hst₁,hrep₁⟩ := hst.copy (j := m) (by omega) (by omega)
      obtain ⟨r,hr,hrepl⟩ := @replaceFrom_spec old h.lines m ⟨[],e,false⟩ (by omega)
      rw [h₁,buildReplacement,hr]
      refine ⟨_,_,m+(oldSeq h.lines).length,rfl,by simp [hrep₁]; rfl,⟨rfl,by simp⟩,?_,
        by push_cast; rfl⟩
      -- the report names the place and the hunk its replacement
      simp only [reportedEdit,isApplied,hcount,Int.toNat_natCast]
      exact hst₁.replace rfl (by simp only [Edit.stop]; omega) (by simp [hrepl])

/-- The run of the loop. -/
theorem applyHunks_progress (idx : ℕ) {hs : List Hunk} (hc : ∀h∈hs,Counted h)
    (hst : Progress old e es c st) (hcur : st.cur=c) : ∃st' reps c',
      applyHunks old e opts idx hs st=some st' ∧ st'.reports=st.reports++reps ∧
      reps.map (·.index)=range' (idx+1) hs.length ∧ (∀rep∈reps,0≤rep.placed) ∧
      Progress old e (es++reportedEdits old hs reps) c' st' ∧ st'.cur=c' := by
  induction hs generalizing idx es c st with
  | nil => exact ⟨st,[],c,rfl,by simp,rfl,by simp,by simpa [reportedEdits] using hst,hcur⟩
  | cons h hs ih =>
    obtain ⟨st₁,rep,c₁,hrun,hreports,hrep,hst₁,hcur₁⟩ :=
      applyHunk_progress hold e opts idx (hc h (by simp)) hst hcur
    obtain ⟨st₂,reps,c₂,hrun₂,hreports₂,hindex,hplaced,hst₂,hcur₂⟩ :=
      ih (idx+1) (fun h hh => hc h (by simp [hh])) hst₁ hcur₁
    refine ⟨st₂,rep::reps,c₂,by rw [applyHunks,hrun]; exact hrun₂,
      by rw [hreports₂,hreports]; simp,?_,?_,?_,hcur₂⟩
    · rw [map_cons,hindex,hrep.index,length_cons,range'_succ]
    · rw [forall_mem_cons]
      exact ⟨hrep.placed,hplaced⟩
    have hedits : reportedEdits old (h::hs) (rep::reps) =
        (reportedEdit old h rep).toList++reportedEdits old hs reps := by
      cases hr : reportedEdit old h rep <;> simp [reportedEdits,hr]
    rw [hedits,←append_assoc]
    exact hst₂

end

/-- `Apply` returns the target with the ranges of the hunks it reports as applied replaced, in order
and apart; without such a hunk it returns the target and its flag. -/
theorem apply_rewrites (hold : old.length<2^62) (e : Bool)
    {hunks : List Hunk} (hc : ∀h∈hunks,Counted h) (opts : ApplyOptions) :
    ∃r,apply old e hunks opts=some r ∧
      r.reports.map (·.index)=range' 1 hunks.length ∧ (∀rep∈r.reports,0≤rep.placed) ∧
      Within 0 old.length (reportedEdits old (orient opts hunks) r.reports) ∧
      r.lines=rewrite old (reportedEdits old (orient opts hunks) r.reports) ∧
      ((∀rep∈r.reports,rep.outcome=.hunkFailed ∨ rep.outcome=.hunkAlreadyApplied)→
        r.lines=old ∧ r.noFinalNewline=e) := by
  have hstart : Progress old e [] 0 { finalNoEOL := e } :=
    ⟨le_refl 0,Nat.zero_le _,rfl,fun _ _ => rfl⟩
  obtain ⟨st,reps,c,hrun,hreports,hindex,hplaced,hst,hcur⟩ :=
    applyHunks_progress hold e opts 0 (counted_orient hc opts) hstart rfl
  obtain ⟨st',htail,hst',hreports'⟩ := hst.copy hst.le (le_refl _)
  have hreps : st'.reports=reps := by rw [hreports',hreports,nil_append]
  rw [←hreps] at hst'
  have hsize : (orient opts hunks).length=hunks.length := by
    rw [orient]
    split <;> simp
  refine ⟨⟨st'.out,st'.finalNoEOL,st'.reports,st'.rejects⟩,?_,?_,?_,hst'.within,hst'.out,?_⟩
  · rw [apply,hrun,Option.bind_eq_bind,Option.bind_some,hcur,htail]
    rfl
  · rw [hreps,hindex,hsize]
  · rw [hreps]
    exact hplaced
  · intro hnone
    have hedits : reportedEdits old (orient opts hunks) st'.reports=[] := by
      refine filterMap_eq_nil_iff.mpr fun p hp => ?_
      have hout := hnone p.2 (of_mem_zip hp).2
      rw [reportedEdit,isApplied]
      rcases hout with hout | hout <;> simp [hout]
    rw [hedits] at hst'
    exact ⟨hst'.out.trans (rewrite_nil old),hst'.flag rfl rfl⟩

def changeSecond : Hunk where
  oldStart := 0
  oldCount := 3
  newStart := 0
  newCount := 3
  lines := [⟨.lineContext,ascii "a",false⟩,⟨.lineDelete,ascii "b",false⟩,
    ⟨.lineAdd,ascii "x",false⟩,⟨.lineContext,ascii "c",false⟩]

theorem counted_changeSecond : Counted changeSecond := ⟨by decide,by decide,by decide⟩

theorem apply_rewrites_changeSecond :
    ∃r,apply [ascii "a",ascii "b",ascii "c"] false [changeSecond] {}=some r ∧
      r.lines=rewrite [ascii "a",ascii "b",ascii "c"]
        (reportedEdits [ascii "a",ascii "b",ascii "c"] [changeSecond] r.reports) := by
  have hcounted : ∀h∈[changeSecond],Counted h := by simpa using counted_changeSecond
  obtain ⟨r,hr,-,-,-,hlines,-⟩ :=
    @apply_rewrites [ascii "a",ascii "b",ascii "c"] (by decide) false _ hcounted {}
  exact ⟨r,hr,hlines⟩

end Coreutils.PatchEffects
