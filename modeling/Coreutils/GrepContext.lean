import Coreutils.GoText

/-!
# Context lines of `grep`

The loop of `searchStream` over the lines of a text, with the lines it keeps for leading context,
and what it should print: the lines within reach of a selected one.
-/

namespace Coreutils.GrepContext
open List GoText

structure Options where
  name : Bytes := []
  showName : Bool := false
  lineNum : Bool := false
  invert : Bool := false
  before : ℕ := 0
  after : ℕ := 0
  maxCount : ℤ := -1

/-- What was printed, and the last line of this file that was. -/
structure Page where
  lastPrinted : ℕ := 0
  wroteGroup : Bool := false
  out : Bytes := []

structure State where
  lineNo : ℕ := 0
  afterRemaining : ℕ := 0
  leading : List (Bytes×ℕ) := []
  stopMatching : Bool := false
  selected : ℕ := 0
  page : Page

section
variable (o : Options)

def fields (n : ℕ) (line : Bytes) (matched : Bool) : Bytes :=
  let sep := if matched then ascii ":" else ascii "-"
  (if o.showName then o.name++sep else [])++(if o.lineNum then digits n++sep else []) ++
    line++[newline]

def separator (last : ℕ) (wrote : Bool) (n : ℕ) : Bytes :=
  if last=0 ∧ wrote=true ∨ 0<last ∧ last+1<n then ascii "--\n" else []

def printContextLine (n : ℕ) (line : Bytes) (matched : Bool) (p : Page) : Page :=
  if n≤p.lastPrinted then p
  else
    { lastPrinted := n,wroteGroup := true
      out := p.out++separator p.lastPrinted p.wroteGroup n++fields o n line matched }

def printLine (n : ℕ) (line : Bytes) (p : Page) : Page :=
  { p with out := p.out++fields o n line true }

def remember (line : Bytes) (s : State) : State :=
  if 0<o.before then
    let leading := s.leading++[(line,s.lineNo)]
    { s with leading := leading.drop (leading.length-o.before) }
  else s

def contextOutput : Bool := decide (0<o.before ∨ 0<o.after)

variable (lineMatch : Bytes→Bool)

def matched (line : Bytes) : Bool := lineMatch line != o.invert

/-- The lines of a text that is not binary, when neither they are counted nor files listed. -/
def searchLines : List Bytes→State→State
  | [],s => s
  | line::rest,s =>
    let n := s.lineNo+1
    if !s.stopMatching && matched o lineMatch line then
      let t : State :=
        if contextOutput o then
          { s with
            lineNo := n,selected := s.selected+1,afterRemaining := max s.afterRemaining o.after
            page := printContextLine o n line true (s.leading.foldl
              (fun p prev => printContextLine o prev.2 prev.1 false p) s.page) }
        else { s with lineNo := n,selected := s.selected+1,page := printLine o n line s.page }
      if 0<o.maxCount ∧ o.maxCount≤t.selected then
        if !contextOutput o || t.afterRemaining == 0 then { t with stopMatching := true }
        else searchLines rest (remember o line { t with stopMatching := true })
      else searchLines rest (remember o line t)
    else if contextOutput o && decide (0<s.afterRemaining) then
      let t : State :=
        { s with
          lineNo := n,afterRemaining := s.afterRemaining-1
          page := printContextLine o n line false s.page }
      if t.stopMatching && t.afterRemaining == 0 then t
      else searchLines rest (remember o line t)
    else searchLines rest (remember o line { s with lineNo := n })

def searchStream (lines : List Bytes) (wroteGroup : Bool) : Page :=
  if o.maxCount=0 then { wroteGroup }
  else (searchLines o lineMatch lines { page := { wroteGroup } }).page

def limit : Option ℕ→List ℕ→List ℕ
  | none,l => l
  | some m,l => l.take m

def budget (selected : ℕ) : Option ℕ :=
  if o.maxCount<0 then none else some (o.maxCount.toNat-selected)

def chosenFrom (k selected : ℕ) (lines : List Bytes) : List ℕ :=
  limit (budget o selected)
    (((lines.zipIdx (k+1)).filter fun p => matched o lineMatch p.1).map Prod.snd)

/-- The numbers of the first `maxCount` selected lines. -/
def chosen (lines : List Bytes) : List ℕ := chosenFrom o lineMatch 0 0 lines

def Near (l : List ℕ) (i : ℕ) : Prop := ∃j∈l,j ≤ i+o.before ∧ i≤j+o.after

instance (l : List ℕ) (i : ℕ) : Decidable (Near o l i) := inferInstanceAs (Decidable (∃j∈l,_))

def shown (lines : List Bytes) : List (Bytes×ℕ) :=
  (lines.zipIdx 1).filter fun p => Near o (chosen o lineMatch lines) p.2

/-- Lines with a separator before each that does not follow the line printed before it. -/
def typeset (mark : ℕ→Bool) : ℕ→Bool→List (Bytes×ℕ)→Bytes
  | _,_,[] => []
  | last,wrote,(line,i)::rest =>
    separator last wrote i++fields o i line (mark i)++typeset mark i true rest

end

section
variable (o : Options) (mark : ℕ→Bool) {l : List (Bytes×ℕ)}

def printAll (l : List (Bytes×ℕ)) (p : Page) : Page :=
  l.foldl (fun p prev => printContextLine o prev.2 prev.1 (mark prev.2) p) p

theorem lastPrinted_printContextLine (n : ℕ) (line : Bytes) (b : Bool) (p : Page) :
    (printContextLine o n line b p).lastPrinted=max n p.lastPrinted := by
  unfold printContextLine
  split
  · omega
  · exact (max_eq_left (Nat.le_of_not_le ‹_›)).symm

theorem typeset_printAll (t : List (Bytes×ℕ)) (p : Page) (h : l.Pairwise fun a b => a.2<b.2) :
    p.out++typeset o mark p.lastPrinted p.wroteGroup ((l.filter fun a => p.lastPrinted<a.2)++t) =
      (printAll o mark l p).out++typeset o mark (printAll o mark l p).lastPrinted
        (printAll o mark l p).wroteGroup t := by
  induction l generalizing p with
  | nil => rfl
  | cons a l ih =>
    obtain ⟨ha,hl⟩ := pairwise_cons.mp h
    by_cases hle : a.2≤p.lastPrinted
    · have hskip : printContextLine o a.2 a.1 (mark a.2) p=p := if_pos hle
      simpa [printAll,hskip,not_lt.mpr hle] using ih p hl
    have hstep := ih (printContextLine o a.2 a.1 (mark a.2) p) hl
    have hall : ∀(k : ℕ),k≤a.2→(l.filter fun b => k<b.2)=l := fun k hk =>
      filter_eq_self.mpr fun b hb => decide_eq_true (by have := ha b hb; omega)
    simp only [printContextLine,if_neg hle,hall a.2 le_rfl] at hstep
    rw [filter_cons_of_pos (by simpa using hle),hall _ (by omega)]
    simpa [printAll,printContextLine,hle,typeset] using hstep

theorem printAll_false {p : Page} (h : ∀a∈l,p.lastPrinted<a.2→mark a.2=false) :
    l.foldl (fun p prev => printContextLine o prev.2 prev.1 false p) p=printAll o mark l p := by
  induction l generalizing p with
  | nil => rfl
  | cons a l ih =>
    have hhead : printContextLine o a.2 a.1 false p=printContextLine o a.2 a.1 (mark a.2) p := by
      unfold printContextLine
      split
      · rfl
      · rw [h a mem_cons_self (by omega)]
    rw [foldl_cons,hhead]
    refine ih fun b hb hlt => h b (mem_cons_of_mem _ hb) ?_
    rw [lastPrinted_printContextLine] at hlt
    omega

theorem lastPrinted_printAll {p : Page} {k : ℕ} (hp : p.lastPrinted≤k)
    (h : ∀a∈l,a.2≤k) : (printAll o mark l p).lastPrinted≤k := by
  induction l generalizing p with
  | nil => exact hp
  | cons a l ih =>
    refine ih ?_ fun b hb => h b (mem_cons_of_mem _ hb)
    rw [lastPrinted_printContextLine]
    exact max_le (h a mem_cons_self) hp

end

section
variable {o : Options} {lineMatch : Bytes→Bool} {mark : ℕ→Bool} {seen rest lines : List Bytes}
  {line : Bytes} {k last after selected : ℕ} {C : List ℕ} {s : State}

theorem chosenFrom_cons (hsel : matched o lineMatch line=true)
    (hb : budget o selected≠some 0) : chosenFrom o lineMatch k selected (line::rest) =
      (k+1)::chosenFrom o lineMatch (k+1) (selected+1) rest := by
  unfold chosenFrom budget at *
  split_ifs at hb with hm
  · simp [*,limit]
  obtain ⟨m,hm'⟩ : ∃m,o.maxCount.toNat-selected=m+1 :=
    Nat.exists_eq_succ_of_ne_zero (by simpa using hb)
  have hnext : o.maxCount.toNat-(selected+1)=m := by omega
  simp [hsel,hm,hm',hnext,limit]

theorem chosenFrom_skip (hsel : matched o lineMatch line=false) :
    chosenFrom o lineMatch k selected (line::rest) =
      chosenFrom o lineMatch (k+1) selected rest := by
  simp [chosenFrom,hsel]

theorem chosenFrom_zero (hb : budget o selected=some 0) :
    chosenFrom o lineMatch k selected rest=[] := by
  simp [chosenFrom,hb,limit]

theorem lt_of_mem_chosenFrom {j : ℕ} (h : j∈chosenFrom o lineMatch k selected rest) : k<j := by
  have hmem : j∈((rest.zipIdx (k+1)).filter fun p => matched o lineMatch p.1).map Prod.snd := by
    unfold chosenFrom at h
    cases hb : budget o selected with
    | none => simpa [hb,limit] using h
    | some m => exact mem_of_mem_take (by simpa [hb,limit] using h)
  obtain ⟨p,hp,rfl⟩ := mem_map.mp hmem
  exact le_snd_of_mem_zipIdx (mem_filter.mp hp).1

theorem drop_zipIdx (l : List Bytes) (k m : ℕ) :
    (l.zipIdx k).drop m=(l.zipIdx k).filter fun p => k+m≤p.2 := by
  induction l generalizing k m with
  | nil => simp
  | cons a l ih =>
    cases m with
    | zero =>
      exact (filter_eq_self.mpr fun p hp =>
        decide_eq_true (le_snd_of_mem_zipIdx hp)).symm
    | succ m =>
      rw [zipIdx_cons,drop_succ_cons,ih]
      simp [show k+1+m=k+(m+1) by omega]

theorem pairwise_zipIdx (l : List Bytes) (k : ℕ) : (l.zipIdx k).Pairwise fun a b => a.2<b.2 := by
  induction l generalizing k with
  | nil => exact .nil
  | cons a l ih => exact .cons (fun _ hb => le_snd_of_mem_zipIdx hb) (ih _)

/-- The lines after `last` within `after` lines of the line `k`, or near a line of `C`. -/
def due (o : Options) (last k after : ℕ) (C : List ℕ) (l : List (Bytes×ℕ)) : List (Bytes×ℕ) :=
  l.filter fun p => last<p.2 ∧ (k<p.2 ∧ p.2≤k+after ∨ Near o C p.2)

theorem due_nil (l : List (Bytes×ℕ)) : due o last k 0 [] l=[] := by
  refine filter_eq_nil_iff.mpr fun p _ => ?_
  simp only [Near,not_mem_nil,false_and,exists_false,or_false,decide_eq_true_eq]
  omega

theorem due_idle (l : List (Bytes×ℕ)) : due o last k 0 C l=due o last (k+1) 0 C l := by
  refine filter_congr fun p _ => ?_
  have h : ∀n,¬ (n<p.2 ∧ p.2≤n+0) := fun n => by omega
  simp only [h]

theorem bounds_of_mem_zipIdx {p : Bytes×ℕ} (h : p∈seen.zipIdx 1) : 1≤p.2 ∧ p.2 ≤ seen.length := by
  have := le_snd_of_mem_zipIdx h
  have := snd_lt_add_of_mem_zipIdx h
  omega

theorem due_past {n : ℕ} (h : seen.length≤n) : due o n k after C (seen.zipIdx 1)=[] := by
  refine filter_eq_nil_iff.mpr fun p hp => ?_
  have := bounds_of_mem_zipIdx hp
  simp only [decide_eq_true_eq]
  omega

theorem due_parts : due o last k after C ((seen++line::rest).zipIdx 1) =
    due o last k after C (seen.zipIdx 1)++(due o last k after C [(line,seen.length+1)] ++
      due o last k after C (rest.zipIdx (seen.length+2))) := by
  simp only [due,←filter_append,zipIdx_append,add_comm 1 seen.length]
  rfl

/-- After a chosen line the kept lines are due, and the line itself. -/
theorem due_chosen (line : Bytes) (rest : List Bytes) (hafter : after≤o.after)
    (hlast : last ≤ seen.length) (hC : ∀j∈C,seen.length+1<j) :
    due o last seen.length after ((seen.length+1)::C) ((seen++line::rest).zipIdx 1) =
      (((seen.zipIdx 1).drop (seen.length-o.before)++[(line,seen.length+1)]).filter
        fun p => last<p.2) ++
      due o (seen.length+1) (seen.length+1) o.after C ((seen++line::rest).zipIdx 1) := by
  have hnear : ∀i,Near o ((seen.length+1)::C) i ↔
      (seen.length+1 ≤ i+o.before ∧ i ≤ seen.length+1+o.after) ∨ Near o C i := fun i => by
    simp [Near]
  have hfar : ∀i,Near o C i→seen.length+1 < i+o.before := by
    rintro i ⟨j,hj,hle,-⟩
    exact (hC j hj).trans_le hle
  have hline : due o (seen.length+1) (seen.length+1) o.after C [(line,seen.length+1)]=[] :=
    filter_cons_of_neg (by simp)
  rw [due_parts,due_parts,due_past (Nat.le_succ _),hline,
    ← append_assoc,filter_append,drop_zipIdx,filter_filter]
  congr 1
  · congr 1
    · refine filter_congr fun p hp => ?_
      have := bounds_of_mem_zipIdx hp
      simp only [hnear,←Bool.decide_and,decide_eq_decide]
      by_cases hn : Near o C p.2
      · have := hfar p.2 hn
        omega
      · simp only [hn,or_false]
        omega
    · refine filter_congr fun p hp => ?_
      obtain rfl := mem_singleton.mp hp
      simp only [hnear,decide_eq_decide]
      omega
  · refine filter_congr fun p hp => ?_
    have := le_snd_of_mem_zipIdx hp
    simp only [hnear,decide_eq_decide]
    by_cases hn : Near o C p.2 <;> simp only [hn,or_true,or_false,and_true] <;> omega

theorem due_context (o : Options) (seen rest : List Bytes) (line : Bytes) (C : List ℕ)
    (hafter : 0<after) : due o seen.length seen.length after C ((seen++line::rest).zipIdx 1) =
      (line,seen.length+1)::due o (seen.length+1) (seen.length+1) (after-1) C
        ((seen++line::rest).zipIdx 1) := by
  have hline : due o seen.length seen.length after C [(line,seen.length+1)] =
      [(line,seen.length+1)] :=
    filter_cons_of_pos (by simp; omega)
  have hnext : due o (seen.length+1) (seen.length+1) (after-1) C
      [(line,seen.length+1)]=[] := filter_cons_of_neg (by simp)
  rw [due_parts,due_parts,due_past le_rfl,due_past (Nat.le_succ _),hline,hnext]
  refine congrArg (List.cons _) (filter_congr fun p hp => ?_)
  have := le_snd_of_mem_zipIdx hp
  simp only [decide_eq_decide]
  by_cases hn : Near o C p.2 <;> simp only [hn,or_true,or_false,and_true] <;> omega

/-- What holds of the state between two lines, when the lines of `mark` are selected. -/
structure Steady (o : Options) (lineMatch : Bytes→Bool) (mark : ℕ→Bool) (rest : List Bytes)
    (s : State) : Prop where
  after : s.afterRemaining≤o.after
  current : 0<s.afterRemaining→s.page.lastPrinted=s.lineNo
  printed : s.page.lastPrinted ≤ s.lineNo
  stopped : s.stopMatching=true ↔ budget o s.selected=some 0
  marks : ∀i,s.page.lastPrinted < i→
    (mark i=true ↔ i∈chosenFrom o lineMatch s.lineNo s.selected rest)

/-- The state after the lines `seen`. -/
structure Tracks (o : Options) (lineMatch : Bytes→Bool) (mark : ℕ→Bool) (seen rest : List Bytes)
    (s : State) : Prop extends Steady o lineMatch mark rest s where
  lineNo : s.lineNo=seen.length
  leading : s.leading=(seen.zipIdx 1).drop (seen.length-o.before)

/-- What is printed, and what is due of the lines of the text. -/
def ahead (o : Options) (lineMatch : Bytes→Bool) (mark : ℕ→Bool) (lines rest : List Bytes)
    (s : State) : Bytes :=
  s.page.out++typeset o mark s.page.lastPrinted s.page.wroteGroup (due o s.page.lastPrinted s.lineNo
    s.afterRemaining (chosenFrom o lineMatch s.lineNo s.selected rest) (lines.zipIdx 1))

theorem remember_eq (o : Options) (seen : List Bytes) (line : Bytes) (s : State) :
    ∃leading,remember o line s={ s with leading } ∧
      (s.lineNo=seen.length+1→s.leading=(seen.zipIdx 1).drop (seen.length-o.before)→
        leading=((seen++[line]).zipIdx 1).drop (seen.length+1-o.before)) := by
  have hsnoc : (seen++[line]).zipIdx 1=seen.zipIdx 1++[(line,seen.length+1)] := by
    simp [zipIdx_append,add_comm]
  unfold remember
  split
  · refine ⟨_,rfl,fun hn hl => ?_⟩
    rw [hl,hn,hsnoc,←drop_append_of_le_length (by simp),drop_drop]
    congr 1
    simp only [length_drop,length_append,length_zipIdx,length_singleton]
    omega
  · refine ⟨s.leading,rfl,fun _ hl => ?_⟩
    rw [hl,drop_eq_nil_of_le (by simp; omega),drop_eq_nil_of_le (by simp; omega)]

theorem reached_iff (selected : ℕ) (hm : o.maxCount≠0) :
    (0<o.maxCount ∧ o.maxCount≤(selected : ℤ)) ↔ budget o selected=some 0 := by
  unfold budget
  split
  · simp only [reduceCtorEq,iff_false]
    omega
  · simp only [Option.some.injEq]
    omega

theorem ahead_done (hb : budget o s.selected=some 0) (hafter : s.afterRemaining=0) :
    ahead o lineMatch mark lines rest s=s.page.out := by
  rw [ahead,chosenFrom_zero hb,hafter,due_nil,typeset,append_nil]

theorem Tracks.ahead_nil (h : Tracks o lineMatch mark seen [] s) :
    ahead o lineMatch mark (seen++[]) [] s=s.page.out := by
  have hdue : due o s.page.lastPrinted s.lineNo s.afterRemaining
      (chosenFrom o lineMatch s.lineNo s.selected []) ((seen++[]).zipIdx 1)=[] := by
    refine filter_eq_nil_iff.mpr fun p hp => ?_
    rw [append_nil] at hp
    have := bounds_of_mem_zipIdx hp
    have := h.lineNo
    have hnone : ¬ Near o (chosenFrom o lineMatch s.lineNo s.selected []) p.2 := by
      rintro ⟨j,hj,-⟩
      cases hb : budget o s.selected <;> simp [chosenFrom,hb,limit] at hj
    simp only [hnone,or_false,decide_eq_true_eq]
    omega
  rw [ahead,hdue,typeset,append_nil]

/-- The state after a chosen line. -/
def choose (o : Options) (line : Bytes) (s : State) : State :=
  { s with
    lineNo := s.lineNo+1,selected := s.selected+1
    afterRemaining := max s.afterRemaining o.after
    page := printContextLine o (s.lineNo+1) line true (s.leading.foldl
      (fun p prev => printContextLine o prev.2 prev.1 false p) s.page) }

theorem Tracks.choose (h : Tracks o lineMatch mark seen (line::rest) s)
    (hmatch : matched o lineMatch line=true) (hb : budget o s.selected≠some 0) :
    (choose o line s).page.lastPrinted=s.lineNo+1 ∧ (∀i,s.lineNo+1 < i→
      (mark i=true ↔ i∈chosenFrom o lineMatch (s.lineNo+1) (s.selected+1) rest)) ∧
    ahead o lineMatch mark (seen++line::rest) (line::rest) s =
      ahead o lineMatch mark (seen++line::rest) rest (choose o line s) := by
  have hline := h.lineNo
  have hmarks := h.marks
  rw [chosenFrom_cons hmatch hb] at hmarks
  have hC : ∀j∈chosenFrom o lineMatch (s.lineNo+1) (s.selected+1) rest,
      s.lineNo+1<j := fun j hj => lt_of_mem_chosenFrom hj
  have hold : ∀a∈s.leading,a.2 ≤ s.lineNo := fun a ha => by
    rw [h.leading] at ha
    exact hline ▸ (bounds_of_mem_zipIdx (mem_of_mem_drop ha)).2
  have hmark : mark (s.lineNo+1)=true :=
    (hmarks _ (Nat.lt_succ_of_le h.printed)).mpr mem_cons_self
  have hpage : (GrepContext.choose o line s).page =
      printAll o mark (s.leading++[(line,s.lineNo+1)]) s.page := by
    rw [GrepContext.choose,printAll_false o mark,printAll,printAll,foldl_append,
      foldl_cons,foldl_nil,hmark]
    intro a ha hlt
    refine Bool.eq_false_iff.mpr fun hm => ?_
    rcases mem_cons.mp ((hmarks _ hlt).mp hm) with he | hmem
    · exact absurd (hold a ha) (by omega)
    · exact absurd (hold a ha) (by have := hC _ hmem; omega)
  have hprinted : (printAll o mark (s.leading++[(line,s.lineNo+1)]) s.page).lastPrinted =
      s.lineNo+1 := by
    have := lastPrinted_printAll o mark h.printed hold
    rw [printAll,foldl_append,foldl_cons,foldl_nil,lastPrinted_printContextLine]
    exact max_eq_left (this.trans (Nat.le_succ _))
  have hsorted : (s.leading++[(line,s.lineNo+1)]).Pairwise fun a b => a.2<b.2 := by
    rw [pairwise_append,h.leading]
    refine ⟨(pairwise_zipIdx seen 1).drop,pairwise_singleton _ _,fun a ha b hb => ?_⟩
    rw [mem_singleton.mp hb]
    exact Nat.lt_succ_of_le (hold a (h.leading ▸ ha))
  refine ⟨by rw [hpage,hprinted],fun i hi => ?_,?_⟩
  · rw [hmarks i (by have := h.printed; omega),mem_cons]
    exact or_iff_right (by omega)
  have hchosen := due_chosen line rest h.after (hline ▸ h.printed) (hline ▸ hC)
  rw [←h.leading,←hline] at hchosen
  rw [ahead,chosenFrom_cons hmatch hb,hchosen,typeset_printAll o mark _ s.page hsorted,ahead,
    hpage,hprinted]
  simp only [GrepContext.choose,max_eq_right h.after]

/-- The state after a line of trailing context. -/
def follow (o : Options) (line : Bytes) (s : State) : State :=
  { s with
    lineNo := s.lineNo+1,afterRemaining := s.afterRemaining-1
    page := printContextLine o (s.lineNo+1) line false s.page }

theorem Tracks.follow (h : Tracks o lineMatch mark seen (line::rest) s)
    (hskip : chosenFrom o lineMatch s.lineNo s.selected (line::rest) =
      chosenFrom o lineMatch (s.lineNo+1) s.selected rest) (hafter : 0<s.afterRemaining) :
    Steady o lineMatch mark rest (follow o line s) ∧
    ahead o lineMatch mark (seen++line::rest) (line::rest) s =
      ahead o lineMatch mark (seen++line::rest) rest (follow o line s) := by
  have hmarks := h.marks
  rw [hskip] at hmarks
  have hmark : mark (s.lineNo+1)=false := Bool.eq_false_iff.mpr fun hm =>
    lt_irrefl _ (lt_of_mem_chosenFrom ((hmarks _ (Nat.lt_succ_of_le h.printed)).mp hm))
  have hpage : (GrepContext.follow o line s).page =
      { lastPrinted := s.lineNo+1,wroteGroup := true,out := s.page.out++separator
          s.page.lastPrinted s.page.wroteGroup (s.lineNo+1) ++
          fields o (s.lineNo+1) line false } := if_neg (by have := h.printed; omega)
  have hcontext := due_context o seen rest line
    (chosenFrom o lineMatch (s.lineNo+1) s.selected rest) hafter
  rw [←h.lineNo] at hcontext
  constructor
  · refine ⟨(Nat.sub_le _ _).trans h.after,fun _ => by rw [hpage]; rfl,by rw [hpage]; rfl,h.stopped,
      fun i hi => hmarks i ?_⟩
    rw [hpage] at hi
    exact h.printed.trans_lt (Nat.lt_of_succ_lt hi)
  · rw [ahead,hskip,h.current hafter,hcontext,ahead,hpage]
    simp only [GrepContext.follow,typeset,hmark,h.current hafter,append_assoc]

theorem out_searchLines (hctx : contextOutput o=true) (hm : o.maxCount≠0)
    (seen : List Bytes) (s : State) (h : Tracks o lineMatch mark seen rest s) :
    (searchLines o lineMatch rest s).page.out=ahead o lineMatch mark (seen++rest) rest s := by
  induction rest generalizing seen s with
  | nil => rw [h.ahead_nil,searchLines]
  | cons line rest ih =>
    have hnext : ∀t : State,Steady o lineMatch mark rest t→t.lineNo=s.lineNo+1→
        t.leading=s.leading→(searchLines o lineMatch rest (remember o line t)).page.out =
          ahead o lineMatch mark (seen++line::rest) rest t := by
      intro t ht hline hleading
      rw [h.lineNo] at hline
      obtain ⟨leading,hr,hl⟩ := remember_eq o seen line t
      rw [hr,append_cons]
      refine ih _ { t with leading } ⟨⟨ht.1,ht.2,ht.3,ht.4,ht.5⟩,?_,?_⟩
      · simpa using hline
      · simpa using hl hline (hleading.trans h.leading)
    rw [searchLines]
    cases hsel : !s.stopMatching && matched o lineMatch line with
    | true =>
      obtain ⟨hstop,hmatch⟩ := Bool.and_eq_true_iff.mp hsel
      have hb : budget o s.selected≠some 0 := fun hz => by simp [h.stopped.mpr hz] at hstop
      obtain ⟨hprinted,htail,hahead⟩ := h.choose hmatch hb
      have hreach := reached_iff (s.selected+1) hm
      rw [hahead]
      have hsteady : ∀stop : Bool,(stop=true ↔ budget o (s.selected+1)=some 0)→
          Steady o lineMatch mark rest { choose o line s with stopMatching := stop } :=
        fun stop hstopped => ⟨max_le h.after le_rfl,fun _ => hprinted,hprinted.le,hstopped,
          fun i hi => htail i (hprinted ▸ hi)⟩
      simp only [if_true,hctx,Bool.not_true,Bool.false_or]
      split_ifs with hmax hafter
      · exact (ahead_done (hreach.mp hmax) (beq_iff_eq.mp hafter)).symm
      · exact hnext _ (hsteady true (iff_of_true rfl (hreach.mp hmax))) rfl rfl
      · exact hnext _ (hsteady _ (iff_of_false (by simpa using hstop) (mt hreach.mpr hmax))) rfl rfl
    | false =>
      have hskip : chosenFrom o lineMatch s.lineNo s.selected (line::rest) =
          chosenFrom o lineMatch (s.lineNo+1) s.selected rest := by
        rcases Bool.and_eq_false_iff.mp hsel with hstop | hmatch
        · have hz := h.stopped.mp (by simpa using hstop)
          rw [chosenFrom_zero hz,chosenFrom_zero hz]
        · exact chosenFrom_skip hmatch
      simp only [hctx,Bool.false_eq_true,if_false,Bool.true_and,decide_eq_true_eq]
      by_cases hafter : 0<s.afterRemaining
      · obtain ⟨hsteady,hahead⟩ := h.follow hskip hafter
        rw [hahead]
        split_ifs with hstop
        · obtain ⟨hs,hz⟩ := Bool.and_eq_true_iff.mp hstop
          exact (ahead_done (s := follow o line s) (h.stopped.mp hs) (beq_iff_eq.mp hz)).symm
        · exact hnext _ hsteady rfl rfl
      · have hmarks := h.marks
        rw [hskip] at hmarks
        rw [if_neg hafter]
        refine (hnext { s with lineNo := s.lineNo+1 } ⟨h.after,fun h => absurd h hafter,
          h.printed.trans (Nat.le_succ _),h.stopped,hmarks⟩ rfl rfl).trans ?_
        simp [ahead,hskip,Nat.eq_zero_of_not_pos hafter,←due_idle]

/-- The lines within reach of the chosen ones are printed, with a separator before each that does
not follow the one before it, and before the first if a group was written for another file. -/
theorem out_searchStream (o : Options) (hctx : 0<o.before ∨ 0<o.after)
    (lineMatch : Bytes→Bool) (lines : List Bytes) (wrote : Bool) :
    (searchStream o lineMatch lines wrote).out =
      typeset o (fun i => decide (i∈chosen o lineMatch lines)) 0 wrote
        (shown o lineMatch lines) := by
  unfold searchStream
  split_ifs with hm
  · have hnone : chosen o lineMatch lines=[] := chosenFrom_zero (by simp [budget,hm])
    simp [shown,hnone,Near,typeset]
  have hfirst : budget o 0≠some 0 := fun h => by
    have := (reached_iff 0 hm).mpr h
    omega
  have hdue : due o 0 0 0 (chosen o lineMatch lines) (lines.zipIdx 1) =
      shown o lineMatch lines := by
    refine filter_congr fun p hp => ?_
    have := le_snd_of_mem_zipIdx hp
    simp only [decide_eq_decide]
    by_cases hn : Near o (chosen o lineMatch lines) p.2 <;>
      simp only [hn,or_true,or_false,and_true,iff_true,iff_false] <;> omega
  rw [←hdue]
  refine (out_searchLines (by simpa [contextOutput] using hctx) hm [] _
    ⟨⟨Nat.zero_le _,fun h => absurd h (lt_irrefl _),le_rfl,?_,?_⟩,rfl,by simp⟩).trans rfl
  · exact iff_of_false (by simp) hfirst
  · exact fun i _ => decide_eq_true_iff

/-- The lines 1, 2 and 4 of four, the first and the last selected, with one line after each. -/
theorem out_searchStream_groups :
    (searchStream { after := 1 } (·=ascii "x") [ascii "x",ascii "a",ascii "b",ascii "x"]
      false).out=ascii "x\na\n--\nx\n" := by
  rw [out_searchStream _ (by decide)]
  decide

/-- After the group of another file a separator comes before the only line. -/
theorem not_separated_within_file :
    (searchStream { after := 1 } (·=ascii "x") [ascii "x"] true).out ≠
      typeset { after := 1 } (fun i => decide (i∈chosen { after := 1 } (·=ascii "x")
        [ascii "x"])) 0 false (shown { after := 1 } (·=ascii "x") [ascii "x"]) := by
  decide

end

end Coreutils.GrepContext
