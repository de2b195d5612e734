import Coreutils.DiffOutput
import Coreutils.HunkWindows

/-!
# What the hunk emitters print

As long as the context width leads to no overflow, the hunks of `emitUnified` are the windows of the
alignment the groups come from, and the index loops print the blocks of a window.
-/

namespace Coreutils.HunkEmission
open List Coreutils.Alignment DiffGroups DiffOutput DiffSides GoText HunkWindows

def shown (mark : Bytes) (l : Line) : List Bytes :=
  if l.noEOL then [mark++l.text,noNewline] else [mark++l.text]

theorem markedLines_getElem? (ls : List Bytes) (e : Bool) (i : ℕ) :
    (markedLines ls e)[i]?=ls[i]?.map (fun l => ⟨l,e && i == ls.length-1⟩) := by
  induction ls generalizing i with
  | nil => simp
  | cons l ls ih =>
    rw [markedLines_cons]
    cases i with
    | zero =>
      cases ls <;> simp
    | succ i =>
      rw [getElem?_cons_succ,ih]
      cases ls with
      | nil | cons => simp

theorem printLine_eq (s : Side) (mark : Bytes) (i : ℕ) :
    printLine s mark i=(markedLines s.lines s.noEOL)[i]?.map (shown mark) := by
  rw [markedLines_getElem?,printLine]
  cases s.lines[i]? with
  | none => rfl
  | some l =>
    simp only [Option.map_some,shown]
    split <;> rfl

variable {P S : List Line} {α : Type*} {w n : ℕ} {gs : List Group}
  {hunk : Span→List Group→Option (List Bytes)} {text : ℕ→ℕ→Window Line→List Bytes}

theorem printFrom_block {s : Side} {B : List Line} (mark : Bytes)
    (h : markedLines s.lines s.noEOL=P++(B++S)) :
    printFrom s mark B.length P.length=some (B.flatMap (shown mark)) := by
  induction B generalizing P with
  | nil => rfl
  | cons l B ih =>
    have hnext : markedLines s.lines s.noEOL=(P++[l])++(B++S) := by simp [h]
    have hrest := ih hnext
    rw [length_append,length_singleton] at hrest
    rw [length_cons,printFrom,printLine_eq,h]
    simp [hrest]

theorem printRange_block {s : Side} {B : List Line} (mark : Bytes)
    (h : markedLines s.lines s.noEOL=P++(B++S)) {i j : ℤ} (hi : i=P.length)
    (hj : j=P.length+B.length) : printRange s mark i j=some (B.flatMap (shown mark)) := by
  subst hi hj
  by_cases hB : B=[]
  · subst hB
    simp [printRange]
  · have hpos : 0<B.length := length_pos_iff.mpr hB
    rw [printRange,if_neg (by omega)]
    simpa using printFrom_block mark h

theorem groupsOf_append (i j : ℕ) (P S : List α) (cs : List (Chunk α)) :
    groupsOf i j (P++S) cs=groupsOf (i+P.length) (j+P.length) S cs := by
  cases cs with
  | nil => rfl
  | cons c cs => simp [groupsOf,add_assoc]

/-- The groups of a hunk are those of a window's chunks. -/
theorem takeHunk_groups (i j : ℕ) (lead : List α) (c : Chunk α)
    (cs : List (Chunk α)) (hw : wrap64 (2*w)=2*w ∨ cs=[]) {g : Group}
    (hg : groupsOf i j lead (c::cs)=g::gs) : takeHunk w g gs =
      (groupsOf i j lead (splitRun w c cs).1,groupsOf (i+(oldSide lead (splitRun w c cs).1).length)
        (j+(newSide lead (splitRun w c cs).1).length) (splitRun w c cs).2.1
        (splitRun w c cs).2.2) := by
  induction cs generalizing i j lead c g gs with
  | nil =>
    obtain ⟨rfl,rfl⟩ := hg
    simp [takeHunk,splitRun,groupsOf]
  | cons c' cs ih =>
    have hw' := hw.resolve_right (by simp)
    rw [groupsOf,cons.injEq] at hg
    obtain ⟨rfl,hgs⟩ := hg
    generalize hg' : groupsOf (i+lead.length+c.del.length) (j+lead.length+c.ins.length)
      c.keep (c'::cs)=gs' at hgs
    subst hgs
    obtain ⟨g',gs'',rfl⟩ : ∃g' gs'',gs'=g'::gs'' := ⟨_,_,by rw [←hg',groupsOf]⟩
    have hstep := ih _ _ c.keep c' (.inl hw') hg'
    have ha0 : g'.a0=i+lead.length+c.del.length+c.keep.length := by
      rw [groupsOf,cons.injEq] at hg'
      rw [←hg'.1]
    rw [takeHunk,splitRun]
    by_cases hk : c.keep.length≤2*w
    · rw [if_pos (by push_cast; omega),if_pos hk,hstep]
      simp [groupsOf,oldSide_cons,newSide_cons,add_assoc]
    · rw [if_neg (by push_cast; omega),if_neg hk,←hg',←take_append_drop w c.keep,groupsOf_append]
      simp [groupsOf,oldSide_cons,newSide_cons,add_assoc]

/-- The common block after a run, cut by the width: its head is the trailing context, its tail is
left for the next window, and it is short only at the end of the file. -/
theorem splitRun_last (w : ℕ) (c : Chunk α) (cs : List (Chunk α)) :
    ∃init d,(splitRun w c cs).1=init++[d] ∧ d.keep=(d.keep++(splitRun w c cs).2.1).take w ∧
      ((splitRun w c cs).2.2=[] ∨ 2*w<(d.keep++(splitRun w c cs).2.1).length) := by
  induction cs generalizing c with
  | nil => exact ⟨[],_,rfl,by simp [splitRun],.inl rfl⟩
  | cons c' cs ih =>
    rw [splitRun]
    by_cases hk : c.keep.length≤2*w
    · rw [if_pos hk]
      obtain ⟨init,d,h₁,h₂,h₃⟩ := ih c'
      exact ⟨c::init,d,by simp [h₁],h₂,h₃⟩
    · rw [if_neg hk]
      exact ⟨[],_,rfl,by simp,.inr (by simp; omega)⟩

/-- The last group of a run ends where its trailing context begins. -/
theorem groupsOf_last (i j : ℕ) (lead : List α) (init : List (Chunk α)) (d : Chunk α) :
    ∃g,(groupsOf i j lead (init++[d])).getLast?=some g ∧
      g.a1+d.keep.length=i+(oldSide lead (init++[d])).length ∧
      g.b1+d.keep.length=j+(newSide lead (init++[d])).length := by
  induction init generalizing i j lead with
  | nil =>
    refine ⟨⟨i+lead.length,i+lead.length+d.del.length,j+lead.length,
      j+lead.length+d.ins.length⟩,rfl,?_,?_⟩
    · simp [oldSide_cons,add_assoc]
    · simp [newSide_cons,add_assoc]
  | cons c init ih =>
    obtain ⟨g,hg,ha,hb⟩ := ih (i+lead.length+c.del.length) (j+lead.length+c.ins.length)
      c.keep
    refine ⟨g,?_,?_,?_⟩
    · rw [cons_append,groupsOf,getLast?_cons,hg]
      rfl
    · rw [cons_append,oldSide_cons]
      simp only [length_append] at ha ⊢
      omega
    · rw [cons_append,newSide_cons]
      simp only [length_append] at hb ⊢
      omega

/-- The sums a hunk's span is made of stay in range. -/
structure InRange (w n : ℕ) (gs : List Group) : Prop where
  width : (w : ℤ)<2^63
  lines : (n : ℤ)<2^62
  stop : ∀g∈gs,(g.a1 : ℤ)+w<2^63
  new : ∀g∈gs,(g.b1 : ℤ)<2^62

/-- Without overflow the span is cut off at the ends of the old side only. -/
theorem hunkSpan_eq {first last : Group} (hw : (w : ℤ)<2^63)
    (ha0 : (first.a0 : ℤ)<2^62) (hb0 : (first.b0 : ℤ)<2^62) (hn : (n : ℤ)<2^62)
    (hstop : (last.a1 : ℤ)+w<2^63) (ha1 : last.a1≤n) (hb1 : (last.b1 : ℤ)<2^62)
    (hlead : min w first.a0≤first.b0) : hunkSpan w n first last =
      { hs := (first.a0-w : ℕ)
        he := (min (last.a1+w) n : ℕ)
        hbs := (first.b0-min w first.a0 : ℕ)
        hbe := (last.b1+(min (last.a1+w) n-last.a1) : ℕ) } := by
  have hext : wrap64 (((min (last.a1+w) n : ℕ) : ℤ)-last.a1) =
      ((min (last.a1+w) n-last.a1 : ℕ) : ℤ) := by
    have hle : last.a1 ≤ min (last.a1+w) n := by omega
    have hlt : ((min (last.a1+w) n-last.a1 : ℕ) : ℤ)<2^63 := by omega
    rw [←Nat.cast_sub hle,wrap64_of_range (by omega) hlt]
  have hback : wrap64 (first.a0-((first.a0-w : ℕ) : ℤ))=((min w first.a0 : ℕ) : ℤ) := by
    rw [wrap64_of_range (by omega) (by omega)]
    omega
  have hbs : wrap64 (first.b0-((min w first.a0 : ℕ) : ℤ)) =
      ((first.b0-min w first.a0 : ℕ) : ℤ) := by
    rw [←Nat.cast_sub hlead,wrap64_of_range (by omega) (by omega)]
  have hbe : wrap64 (last.b1+((min (last.a1+w) n-last.a1 : ℕ) : ℤ)) =
      ((last.b1+(min (last.a1+w) n-last.a1) : ℕ) : ℤ) := by
    rw [←Nat.cast_add,wrap64_of_range (by omega) (by omega)]
  have hs : (if wrap64 (first.a0-w)<0 then 0 else wrap64 (first.a0-w)) =
      ((first.a0-w : ℕ) : ℤ) := by
    rw [wrap64_of_range (by omega) (by omega)]
    split <;> omega
  have he : (if wrap64 (last.a1+w)>n then (n : ℤ) else wrap64 (last.a1+w)) =
      ((min (last.a1+w) n : ℕ) : ℤ) := by
    rw [wrap64_of_range (by omega) hstop]
    split <;> omega
  simp only [hunkSpan,hs,he,hback,hext,hbs,hbe]

/-- The lengths of a span: `L`, `A` and `B` of a window's leading context and sides, `K` of its
trailing context, `R` and `M` of what follows. -/
private theorem span_arith {i j L A B K R M a1 b1 : ℕ} (ha1 : a1+K=i+A)
    (hb1 : b1+K=j+B) (hK : K=min w (K+R)) (hmore : M=0 ∨ 2*w<K+R)
    (hn : n=i+(A+(R+M))) (hstart : i=0 ∨ w≤L) :
    i+L-w=i+(L-w) ∧ min (a1+w) n=i+A ∧ j+L-min w (i+L)=j+(L-w) ∧ b1+(min (a1+w) n-a1)=j+B := by
  have h₁ : i+L-w=i+(L-w) := by omega
  have h₂ : min (a1+w) n=i+A := by omega
  have h₃ : j+L-min w (i+L)=j+(L-w) := by omega
  exact ⟨h₁,h₂,h₃,by omega⟩

theorem hunkSpan_window {i j : ℕ} {lead : List Line} {c : Chunk Line} {cs : List (Chunk Line)}
    {g : Group} (hg : groupsOf i j lead (c::cs)=g::gs)
    (hn : n=i+(oldSide lead (c::cs)).length) (hstart : i=0 ∨ w≤lead.length)
    (hnew : (j : ℤ)+(newSide lead (c::cs)).length<2^62)
    (hr : InRange w n (groupsOf i j lead (splitRun w c cs).1)) :
    hunkSpan w n g (((groupsOf i j lead (splitRun w c cs).1).getLast?).getD g) =
      { hs := (i+(lead.length-w) : ℕ)
        he := (i+(oldSide lead (splitRun w c cs).1).length : ℕ)
        hbs := (j+(lead.length-w) : ℕ)
        hbe := (j+(newSide lead (splitRun w c cs).1).length : ℕ) } := by
  obtain ⟨init,d,hrun,hkeep,hmore⟩ := splitRun_last w c cs
  obtain ⟨last,hlast,ha1,hb1⟩ := groupsOf_last i j lead init d
  -- the lengths of the blocks of the window and of what follows it
  have hA : (oldSide lead (c::cs)).length=(oldSide lead (init++[d])).length +
      ((splitRun w c cs).2.1.length+(oldSide [] (splitRun w c cs).2.2).length) := by
    rw [oldSide,splitRun_side (fun _ _ => rfl) w lead c cs,hrun,length_append,oldSide,
      oldSide,←length_side]
  have hL : lead.length≤(oldSide lead (c::cs)).length ∧
      lead.length≤(newSide lead (c::cs)).length := by
    simp [oldSide,newSide,side]
  have hK := congrArg length hkeep
  rw [length_take,length_append] at hK
  have hmore' : (oldSide [] (splitRun w c cs).2.2).length=0 ∨
      2*w<d.keep.length+(splitRun w c cs).2.1.length := by
    rw [length_append] at hmore
    rcases hmore with h | h
    · exact .inl (by simp [h])
    · exact .inr h
  obtain ⟨h₁,h₂,h₃,h₄⟩ := span_arith (n := n) ha1 hb1 hK hmore' (by rw [hn,hA]) hstart
  have hmem := mem_of_getLast? hlast
  rw [hrun] at hr ⊢
  have hlines := hr.lines
  have ha1n : last.a1≤n := by omega
  have hmin : min w (i+lead.length)≤j+lead.length := by
    clear*- hstart
    omega
  obtain ⟨rfl,-⟩ := hg
  rw [hlast,Option.getD_some,hunkSpan_eq hr.width
    (by clear*- hL hlines hn; simp only [Nat.cast_add]; omega)
    (by clear*- hL hnew; simp only [Nat.cast_add]; omega)
    hlines (hr.stop last hmem) ha1n (hr.new last hmem) hmin]
  rw [Span.mk.injEq,h₁,h₄,h₂,h₃]
  exact ⟨rfl,rfl,rfl,rfl⟩

theorem takeHunk_append (ctx : ℤ) (g : Group) (gs : List Group) :
    (takeHunk ctx g gs).1++(takeHunk ctx g gs).2=g::gs := by
  induction gs generalizing g with
  | nil => rfl
  | cons g' gs ih =>
    rw [takeHunk]
    split
    · simp [ih g']
    · rfl

theorem InRange.subset {gs' : List Group} (h : InRange w n gs) (hs : gs' ⊆ gs) : InRange w n gs' :=
  ⟨h.width,h.lines,fun g hg => h.stop g (hs hg),fun g hg => h.new g (hs hg)⟩

/-- The hunks an emitter prints: the span of each and its groups. -/
def hunkRuns (ctx : ℤ) (n : ℕ) : ℕ→List Group→List (Span×List Group)
  | _,[] | 0,_::_ => []
  | fuel+1,g::gs =>
    let run := takeHunk ctx g gs
    (hunkSpan ctx n g (run.1.getLast?.getD g),run.1)::hunkRuns ctx n fuel run.2

def printRuns (hunk : Span→List Group→Option (List Bytes)) :
    List (Span×List Group)→Option (List Bytes)
  | [] => some []
  | r::rs => do
    let out ← hunk r.1 r.2
    let rest ← printRuns hunk rs
    pure (out++rest)

theorem takeHunk_length (ctx : ℤ) (g : Group) (gs : List Group) :
    (takeHunk ctx g gs).2.length≤gs.length := by
  have happend := congrArg length (takeHunk_append ctx g gs)
  have hpos : 0<(takeHunk ctx g gs).1.length := by
    cases gs with
    | nil => simp [takeHunk]
    | cons g' gs => rw [takeHunk]; split <;> simp
  rw [length_append,length_cons] at happend
  omega

theorem eachHunk_eq_printRuns {ctx : ℤ} (hunk : Span→List Group→Option (List Bytes))
    {fuel : ℕ} (h : gs.length≤fuel) :
    eachHunk ctx n hunk fuel gs=printRuns hunk (hunkRuns ctx n fuel gs) := by
  induction fuel generalizing gs with
  | zero =>
    obtain rfl : gs=[] := length_eq_zero_iff.mp (by omega)
    rfl
  | succ fuel ih =>
    cases gs with
    | nil => rfl
    | cons g gs =>
      have hle := takeHunk_length ctx g gs
      rw [eachHunk,hunkRuns,printRuns,ih (hle.trans (by simpa using h))]

def firstWindow (w : ℕ) (lead : List Line) (c : Chunk Line) (cs : List (Chunk Line)) :
    Window Line :=
  ⟨lead.take (lead.length-w),lead.drop (lead.length-w),(splitRun w c cs).1⟩

theorem firstWindow_old (w : ℕ) (lead : List Line) (c : Chunk Line) (cs : List (Chunk Line)) :
    (firstWindow w lead c cs).old=oldSide lead (splitRun w c cs).1 := by
  rw [Window.old,firstWindow,oldSide,oldSide,←side_append,take_append_drop]

theorem firstWindow_new (w : ℕ) (lead : List Line) (c : Chunk Line) (cs : List (Chunk Line)) :
    (firstWindow w lead c cs).new=newSide lead (splitRun w c cs).1 := by
  rw [Window.new,firstWindow,newSide,newSide,←side_append,take_append_drop]

/-- The spans and groups of windows; at `i` and `j` the part of the first one begins. -/
def windowRuns : ℕ→ℕ→List (Window Line)→List (Span×List Group)
  | _,_,[] => []
  | i,j,x::xs =>
    (⟨(i+x.skip.length : ℕ),(i+x.old.length : ℕ),(j+x.skip.length : ℕ),
        (j+x.new.length : ℕ)⟩,groupsOf i j (x.skip++x.lead) x.chunks) ::
      windowRuns (i+x.old.length) (j+x.new.length) xs

/-- The hunks an emitter prints are the windows of the alignment. -/
theorem hunkRuns_windows {m : ℕ} (hm : (m : ℤ)<2^62) (fuel : ℕ) (lead : List Line)
    (chunks : List (Chunk Line)) (i j : ℕ) (hfuel : chunks.length≤fuel)
    (hn : n=i+(oldSide lead chunks).length) (hnew : m=j+(newSide lead chunks).length)
    (hstart : chunks=[] ∨ i=0 ∨ w≤lead.length) (hmerge : wrap64 (2*w)=2*w ∨ chunks.length≤1)
    (hr : InRange w n (groupsOf i j lead chunks)) :
    hunkRuns w n fuel (groupsOf i j lead chunks)=windowRuns i j (windows w lead chunks).1 := by
  induction fuel generalizing lead chunks i j with
  | zero =>
    obtain rfl : chunks=[] := length_eq_zero_iff.mp (by omega)
    simp [groupsOf,hunkRuns,windowRuns]
  | succ fuel ih =>
    cases chunks with
    | nil => simp [groupsOf,hunkRuns,windowRuns]
    | cons c cs =>
      have hstart' := hstart.resolve_left (by simp)
      obtain ⟨g,gs,hg⟩ : ∃g gs,groupsOf i j lead (c::cs)=g::gs := ⟨_,_,by rw [groupsOf]⟩
      have htake := takeHunk_groups i j lead c cs
        (hmerge.imp id (fun h => length_eq_zero_iff.mp (by simpa using h))) hg
      have happend := takeHunk_append w g gs
      rw [htake] at happend
      have hspan := hunkSpan_window hg hn hstart' (by push_cast at hm ⊢; omega)
        (hr.subset (by rw [hg,←happend]; exact subset_append_left _ _))
      have hsplita := splitRun_side (f := Chunk.del) (fun _ _ => rfl) w lead c cs
      have hsplitb := splitRun_side (f := Chunk.ins) (fun _ _ => rfl) w lead c cs
      rw [←oldSide] at hsplita
      rw [←newSide] at hsplitb
      rw [hsplita,length_append,←add_assoc] at hn
      rw [hsplitb,length_append,←add_assoc] at hnew
      obtain ⟨init,d,hrun,hkeep,hmore⟩ := splitRun_last w c cs
      -- the loop goes on behind the window
      have hrest := ih (splitRun w c cs).2.1 (splitRun w c cs).2.2
        (i+(oldSide lead (splitRun w c cs).1).length)
        (j+(newSide lead (splitRun w c cs).1).length)
        ((splitRun_length w c cs).trans (by simpa using hfuel)) hn hnew
        (hmore.imp id (fun h => .inr (by
          have := congrArg length hkeep
          simp only [length_take,length_append] at this h
          omega)))
        (hmerge.imp id (fun h => (splitRun_length w c cs).trans (by
          simp only [length_cons] at h
          omega)))
        (hr.subset (by
          rw [hg,←happend]
          exact subset_append_right _ _))
      rw [hg,hunkRuns]
      simp only [htake,hspan,hrest]
      rw [windows_cons,windowRuns,←firstWindow,firstWindow_old,firstWindow_new]
      simp only [firstWindow,take_append_drop,length_take]
      rw [min_eq_left (Nat.sub_le _ _)]

/-- A hunk printer prints a window: at its place in both files, the window's text. -/
def Prints (sa sb : Side) (hunk : Span→List Group→Option (List Bytes))
    (text : ℕ→ℕ→Window Line→List Bytes) : Prop :=
  ∀(P Q S T : List Line) (x : Window Line),x.chunks≠[]→
    markedLines sa.lines sa.noEOL=P++(x.old++S)→
    markedLines sb.lines sb.noEOL=Q++(x.new++T)→
    hunk ⟨(P.length+x.skip.length : ℕ),(P.length+x.old.length : ℕ),
        (Q.length+x.skip.length : ℕ),(Q.length+x.new.length : ℕ)⟩
      (groupsOf P.length Q.length (x.skip++x.lead) x.chunks)=some (text P.length Q.length x)

def windowsText (text : ℕ→ℕ→Window Line→List Bytes) : ℕ→ℕ→List (Window Line)→List Bytes
  | _,_,[] => []
  | i,j,x::xs => text i j x++windowsText text (i+x.old.length) (j+x.new.length) xs

theorem printRuns_windows {sa sb : Side} (hprint : Prints sa sb hunk text)
    {xs : List (Window Line)} (hne : ∀x∈xs,x.chunks≠[]) {Q T : List Line}
    (ha : markedLines sa.lines sa.noEOL=P++(xs.flatMap Window.old++S))
    (hb : markedLines sb.lines sb.noEOL=Q++(xs.flatMap Window.new++T)) :
    printRuns hunk (windowRuns P.length Q.length xs) =
      some (windowsText text P.length Q.length xs) := by
  induction xs generalizing P Q with
  | nil => rfl
  | cons x xs ih =>
    simp only [flatMap_cons,append_assoc] at ha hb
    have hx := hprint P Q _ _ x (hne x (by simp)) ha hb
    have hrest := ih (fun y hy => hne y (by simp [hy])) (P := P++x.old) (Q := Q++x.new)
      (by simp [ha]) (by simp [hb])
    rw [length_append,length_append] at hrest
    simp only [windowRuns,printRuns,hx,hrest,windowsText,Option.bind_eq_bind,
      Option.bind_some,Option.pure_def]

/-- The sums the emitters form with the width for these groups do not overflow. -/
def WidthFits (n : ℤ) (gs : List Group) : Prop :=
  n<2^62 ∨ (gs.length≤1 ∧ ∀g∈gs,(g.a1 : ℤ)+n<2^63)

section
variable {a b : File} {sa sb : Side} {lead : List Line}
  {chunks : List (Chunk Line)}

section
variable (h : Aligned a b sa sb gs lead chunks) (hmax : (w : ℤ)<2^63) (hw : WidthFits w gs)
include h hmax hw

theorem inRange_of_aligned : InRange w sa.lines.length gs := by
  have hlena := congrArg length h.marked_old
  have hlenb := congrArg length h.marked_new
  simp only [length_markedLines] at hlena hlenb
  have hlb := h.lines_new
  refine ⟨hmax,h.lines_old,fun g hg => ?_,fun g hg => ?_⟩
  · rcases hw with hw | hw
    · rw [h.groups] at hg
      have := (groupsOf_le hg).1
      have := h.lines_old
      omega
    · exact hw.2 g hg
  · rw [h.groups] at hg
    have := (groupsOf_le hg).2
    omega

/-- Without overflow the hunks are the windows of the alignment. -/
theorem hunkRuns_aligned :
    hunkRuns w sa.lines.length gs.length gs=windowRuns 0 0 (windows w lead chunks).1 := by
  have hmerge : wrap64 (2*w)=2*w ∨ chunks.length≤1 := by
    rcases hw with hw | hw
    · exact .inl (wrap64_of_range (by omega) (by omega))
    · exact .inr (by simpa [h.groups] using hw.1)
  have hr := inRange_of_aligned h hmax hw
  have hlena := congrArg length h.marked_old
  have hlenb := congrArg length h.marked_new
  simp only [length_markedLines] at hlena hlenb
  rw [h.groups] at hr ⊢
  rw [length_groupsOf]
  exact hunkRuns_windows h.lines_new chunks.length lead chunks 0 0 (le_refl _)
    (by rw [hlena,zero_add]) (by rw [hlenb,zero_add]) (.inr (.inl rfl)) hmerge hr

/-- Without overflow the emitters print the windows of the alignment. -/
theorem eachHunk_aligned
    (hprint : Prints sa sb hunk text) : eachHunk w sa.lines.length hunk gs.length gs =
      some (windowsText text 0 0 (windows w lead chunks).1) := by
  rw [eachHunk_eq_printRuns hunk (le_refl _),hunkRuns_aligned h hmax hw]
  exact printRuns_windows hprint (windows_chunks_ne_nil w lead chunks) (P := []) (Q := [])
    (by rw [h.marked_old,windows_old w]; rfl) (by rw [h.marked_new,windows_new w]; rfl)

end

end

end Coreutils.HunkEmission
