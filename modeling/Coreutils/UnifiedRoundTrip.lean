import Coreutils.HunkEmission
import Coreutils.PatchHeaders
import Coreutils.WindowHunks

/-!
# A unified diff applies to the file it was made from

`emitUnified` prints the windows of the alignment, `Parse` reads back one hunk for each, and these
hunks fit the old file exactly. Only the context width can break the chain: doubling it, or adding
it to a line number, overflows for widths no file needs but the command line accepts.
-/

namespace Coreutils.UnifiedRoundTrip
open List Coreutils.Alignment DiffGroups DiffOutput DiffSides GoText HunkEmission HunkWindows
open PatchParse PatchApply PatchExact PatchHeaders WindowHunks

def markOf : LineKind→Bytes
  | .lineContext => ascii " "
  | .lineDelete => ascii "-"
  | .lineAdd => ascii "+"

@[simp] theorem markOf_lineContext : markOf .lineContext=[32] := rfl

@[simp] theorem markOf_lineDelete : markOf .lineDelete=[45] := rfl

@[simp] theorem markOf_lineAdd : markOf .lineAdd=[43] := rfl

def shownLine (h : HunkLine) : List Bytes := shown (markOf h.kind) ⟨h.text,h.noEOL⟩

theorem flatMap_shownLine (kind : LineKind) (ls : List Line) :
    (ls.map (hunkLine kind)).flatMap shownLine=ls.flatMap (shown (markOf kind)) := by
  simp [flatMap_map,shownLine,hunkLine]

def unifiedHeader (i n j m : ℤ) : Bytes :=
  ascii "@@ -" ++ unifiedRange i n++ascii " +" ++ unifiedRange j m++ascii " @@"

/-- A window as `emitUnified` prints it; `i` and `j` are the places where its part begins. -/
def unifiedWindow (i j : ℕ) (x : Window Line) : List Bytes :=
  unifiedHeader (i+x.skip.length : ℕ) (oldSide x.lead x.chunks).length
    (j+x.skip.length : ℕ) (newSide x.lead x.chunks).length::(hunkBody x.lead x.chunks).flatMap
      shownLine

variable {sa sb : Side} {lead : List Line} {cs : List (Chunk Line)} {oc nc os ns : ℤ}

theorem unifiedGroups_text {P Q S T : List Line}
    (ha : markedLines sa.lines sa.noEOL=P++(oldSide lead cs++S))
    (hb : markedLines sb.lines sb.noEOL=Q++(newSide lead cs++T)) :
    ∃body ai tail,unifiedGroups sa sb P.length Q.length (groupsOf P.length Q.length lead cs) =
        some (body,ai) ∧
      printRange sa (ascii " ") ai (P.length+(oldSide lead cs).length : ℕ)=some tail ∧
      body++tail=(hunkBody lead cs).flatMap shownLine := by
  induction cs generalizing P Q lead with
  | nil =>
    refine ⟨[],P.length,lead.flatMap (shown (ascii " ")),rfl,?_,?_⟩
    · exact printRange_block _ (by simpa using ha) rfl (by simp)
    · simp [hunkBody,flatMap_shownLine,markOf]
  | cons c cs ih =>
    rw [oldSide_cons] at ha
    rw [newSide_cons] at hb
    simp only [append_assoc] at ha hb
    have hnexta : markedLines sa.lines sa.noEOL =
        (P++(lead++c.del))++(oldSide c.keep cs++S) := by simp [ha]
    have hnextb : markedLines sb.lines sb.noEOL =
        (Q++(lead++c.ins))++(newSide c.keep cs++T) := by simp [hb]
    obtain ⟨body,ai,tail,hrun,htail,htext⟩ := ih hnexta hnextb
    have hcommon : printRange sa (ascii " ") P.length ((P.length+lead.length : ℕ) : ℤ)=_ :=
      printRange_block _ ha rfl (by simp)
    have hdel : printRange sa (ascii "-") ((P.length+lead.length : ℕ) : ℤ)
        ((P.length+lead.length+c.del.length : ℕ) : ℤ)=_ :=
      printRange_block (P := P++lead) _ (by simpa using ha) (by simp) (by simp)
    have hins : printRange sb (ascii "+") ((Q.length+lead.length : ℕ) : ℤ)
        ((Q.length+lead.length+c.ins.length : ℕ) : ℤ)=_ :=
      printRange_block (P := Q++lead) _ (by simpa using hb) (by simp) (by simp)
    have hmaxa : max (P.length : ℤ) ((P.length+lead.length : ℕ) : ℤ) =
        ((P.length+lead.length : ℕ) : ℤ) := max_eq_right (by push_cast; omega)
    have hbi : (Q.length : ℤ)+(((P.length+lead.length : ℕ) : ℤ)-P.length) =
        ((Q.length+lead.length : ℕ) : ℤ) := by push_cast; ring
    have hmaxa' : max ((P.length+lead.length : ℕ) : ℤ)
        ((P.length+lead.length+c.del.length : ℕ) : ℤ) =
        ((P.length+lead.length+c.del.length : ℕ) : ℤ) := max_eq_right (by push_cast; omega)
    have hmaxb' : max ((Q.length+lead.length : ℕ) : ℤ)
        ((Q.length+lead.length+c.ins.length : ℕ) : ℤ) =
        ((Q.length+lead.length+c.ins.length : ℕ) : ℤ) := max_eq_right (by push_cast; omega)
    simp only [length_append,←add_assoc] at hrun htail
    refine ⟨lead.flatMap (shown (ascii " "))++c.del.flatMap (shown (ascii "-")) ++
      c.ins.flatMap (shown (ascii "+"))++body,ai,tail,?_,?_,?_⟩
    · rw [groupsOf,unifiedGroups]
      simp only [hcommon,hmaxa,hbi,hdel,hins,hmaxa',hmaxb',hrun,Option.bind_eq_bind,
        Option.bind_some,Option.pure_def]
    · rw [oldSide_cons,←htail]
      simp [add_assoc]
    · rw [hunkBody]
      simp [htext,flatMap_shownLine,markOf]

theorem unifiedHunk_prints (hna : (sa.lines.length : ℤ)<2^62)
    (hnb : (sb.lines.length : ℤ)<2^62) : Prints sa sb (unifiedHunk sa sb) unifiedWindow := by
  intro P Q S T x _ ha hb
  have hlena := congrArg length ha
  have hlenb := congrArg length hb
  rw [Window.old] at ha
  rw [Window.new] at hb
  simp only [length_markedLines,length_append,Window.old,Window.new] at hlena hlenb
  rw [append_assoc,←append_assoc] at ha hb
  obtain ⟨body,ai,tail,hrun,htail,htext⟩ := unifiedGroups_text ha hb
  simp only [length_append] at hrun htail
  have hold : wrap64 (((P.length+x.old.length : ℕ) : ℤ)-((P.length+x.skip.length : ℕ) : ℤ)) =
      ((oldSide x.lead x.chunks).length : ℕ) := by
    rw [Window.old,length_append,wrap64_of_range (by omega) (by omega)]
    push_cast
    ring
  have hnew : wrap64 (((Q.length+x.new.length : ℕ) : ℤ)-((Q.length+x.skip.length : ℕ) : ℤ)) =
      ((newSide x.lead x.chunks).length : ℕ) := by
    rw [Window.new,length_append,wrap64_of_range (by omega) (by omega)]
    push_cast
    ring
  have hend : P.length+x.old.length =
      P.length+x.skip.length+(oldSide x.lead x.chunks).length := by
    rw [Window.old,length_append,add_assoc]
  rw [groupsOf_append,unifiedHunk]
  simp only [hrun,hold,hnew,Option.bind_eq_bind,Option.bind_some]
  rw [hend,htail]
  simp [htext,unifiedWindow,unifiedHeader]

theorem unifiedHunk?_header {i j : ℤ} {n m : ℕ} (hi : 0 ≤ i) (hi' : i+1<2^63)
    (hn : (n : ℤ)<2^63) (hj : 0≤j ∨ (0≤j+1 ∧ m≠0)) (hj' : j+1<2^63) (hm : (m : ℤ)<2^63) :
    ∃old new,unifiedHunk? (unifiedHeader i n j m)=some (old,new) ∧
      unifiedSide old=(i,(n : ℤ)) ∧ unifiedSide new=(j,(m : ℤ)) := by
  obtain ⟨new,hnew,hsnew⟩ := range?_unifiedRange hj' hm hj (s := ascii " @@")
    (endsRange_cons (by decide) (by decide) _)
  obtain ⟨old,hold,hsold⟩ := range?_unifiedRange hi' hn (.inl hi)
    (s := ascii " +" ++ (unifiedRange j m++ascii " @@"))
    (endsRange_cons (by decide) (by decide) _)
  refine ⟨old,new,?_,hsold,hsnew⟩
  have hend : lit? (ascii " @@") (ascii " @@")=some [] := rfl
  simp [unifiedHunk?,unifiedHeader,hold,hnew,hend]

theorem flagLast_concat (hl : List HunkLine) (l : HunkLine) :
    flagLast (hl++[l])=hl++[{ l with noEOL := true }] := by
  induction hl with
  | nil => rfl
  | cons h hl ih =>
    obtain ⟨h',hl',hhl⟩ := exists_cons_of_ne_nil (l := hl++[l]) (by simp)
    rw [cons_append,hhl,flagLast,←hhl,ih,cons_append]

variable (nm : Bytes) (l : HunkLine) (ls : List HunkLine) {rest : List RawLine} {gs : List Group}
  {a b : File}

/-- One turn of the reader on a hunk line. -/
theorem unifiedBody_line (h : os<oc ∨ ns<nc) (l : HunkLine)
    (rest : List RawLine) (hl : List HunkLine) :
    unifiedBody nm oc nc (raw (markOf l.kind++l.text)::rest) os ns hl =
      unifiedBody nm oc nc rest (os+(oldSeq [l]).length) (ns+(newSeq [l]).length)
        (hl++[{ l with noEOL := false }]) := by
  obtain ⟨kind,text,noEOL⟩ := l
  cases kind <;> simp [unifiedBody,raw,h,oldSeq,newSeq]

/-- One turn of the reader on a marker. -/
theorem unifiedBody_marker (h : os<oc ∨ ns<nc) (rest : List RawLine) (hl : List HunkLine) :
    unifiedBody nm oc nc (raw noNewline::rest) os ns hl =
      unifiedBody nm oc nc rest os ns (flagLast hl) := by
  obtain ⟨t,ht⟩ := noNewline_eq
  simp [unifiedBody,raw,ht,h]

theorem unifiedBody_met (ho : oc≤os) (hn : nc≤ns) (rest : List RawLine) (hl : List HunkLine) :
    unifiedBody nm oc nc rest os ns hl=.ok (hl,rest) := by
  have hmet : ¬ (os<oc ∨ ns<nc) := by omega
  cases rest <;> simp [unifiedBody,if_neg hmet]

theorem trailingMarkers_rest (hrest : ∀l∈rest.head?,l.text.head?≠some 92) (hl : List HunkLine) :
    trailingMarkers rest hl=(hl,rest) := by
  cases rest with
  | nil => rfl
  | cons l rest => rw [trailingMarkers,if_neg (hrest l (by simp))]

theorem seq_cons_pos : 0<(oldSeq (l::ls)).length ∨ 0<(newSeq (l::ls)).length := by
  obtain ⟨kind,text,noEOL⟩ := l
  cases kind <;> simp [oldSeq,newSeq]

theorem length_oldSeq_cons :
    ((oldSeq (l::ls)).length : ℤ)=(oldSeq [l]).length+(oldSeq ls).length := by
  rw [←singleton_append,oldSeq_append,length_append,Nat.cast_add]

theorem length_newSeq_cons :
    ((newSeq (l::ls)).length : ℤ)=(newSeq [l]).length+(newSeq ls).length := by
  rw [←singleton_append,newSeq_eq,newLines_append,map_append,length_append]
  rfl

/-- The reader takes the printed lines of a hunk, as many as its header says, and the markers among
them; the last marker may be left to the loop behind it. -/
theorem unifiedBody_lines (body : List HunkLine)
    (hrest : ∀l∈rest.head?,l.text.head?≠some 92) (os ns : ℤ) (hl : List HunkLine) :
    ∃hl' rest',unifiedBody nm (os+(oldSeq body).length) (ns+(newSeq body).length)
        ((body.flatMap shownLine).map raw++rest) os ns hl=.ok (hl',rest') ∧
      trailingMarkers rest' hl'=(hl++body,rest) := by
  induction body generalizing os ns hl with
  | nil =>
    refine ⟨hl,rest,?_,by rw [trailingMarkers_rest hrest,append_nil]⟩
    exact unifiedBody_met nm (by simp [oldSeq]) (by simp [newSeq]) rest hl
  | cons l body ih =>
    have hmore : os<os+(oldSeq (l::body)).length ∨ ns<ns+(newSeq (l::body)).length := by
      have := seq_cons_pos l body
      omega
    rw [length_oldSeq_cons,length_newSeq_cons,←add_assoc,←add_assoc] at hmore ⊢
    have hline := unifiedBody_line nm hmore l
    obtain ⟨kind,text,noEOL⟩ := l
    cases noEOL with
    | false =>
      obtain ⟨hl',rest',hrun,htrail⟩ := ih (os+(oldSeq [⟨kind,text,false⟩]).length)
        (ns+(newSeq [⟨kind,text,false⟩]).length) (hl++[⟨kind,text,false⟩])
      refine ⟨hl',rest',?_,by simpa using htrail⟩
      rw [←hrun,←hline]
      simp [shownLine,shown]
    | true =>
      have hshown : ((⟨kind,text,true⟩::body).flatMap shownLine).map raw++rest =
          raw (markOf kind++text)::raw noNewline ::
            ((body.flatMap shownLine).map raw++rest) := by
        simp [shownLine,shown]
      rw [hshown,hline]
      cases body with
      | nil =>
        -- the counts are met, so the marker is left behind
        refine ⟨_,_,unifiedBody_met nm (by simp [oldSeq]) (by simp [newSeq]) _ _,?_⟩
        rw [trailingMarkers,if_pos (by decide),flagLast_concat]
        exact trailingMarkers_rest hrest _
      | cons l' body =>
        rw [unifiedBody_marker nm (by have := seq_cons_pos l' body; omega),flagLast_concat]
        obtain ⟨hl',rest',hrun,htrail⟩ := ih (os+(oldSeq [⟨kind,text,true⟩]).length)
          (ns+(newSeq [⟨kind,text,true⟩]).length) (hl++[⟨kind,text,true⟩])
        exact ⟨hl',rest',hrun,by simpa using htrail⟩

/-- One turn of the loop over the hunks, on a hunk as it is printed. -/
theorem unifiedHunks_hunk (fuel : ℕ) {header : Bytes} {old new : Bytes×Bytes}
    {h : Hunk} (hstart : startsWith (ascii "@@ ") header=true)
    (hheader : unifiedHunk? header=some (old,new)) (hold : unifiedSide old=(h.oldStart,h.oldCount))
    (hnew : unifiedSide new=(h.newStart,h.newCount))
    (hoc : h.oldCount=(oldSeq h.lines).length) (hnc : h.newCount=(newSeq h.lines).length)
    (hrest : ∀l∈rest.head?,l.text.head?≠some 92) :
    unifiedHunks nm (fuel+1) (raw header::((h.lines.flatMap shownLine).map raw++rest)) =
      (do let (hunks,rest) ← unifiedHunks nm fuel rest; pure (h::hunks,rest)) := by
  obtain ⟨hl,rest',hrun,htrail⟩ := unifiedBody_lines nm h.lines hrest 0 0 []
  simp only [zero_add,←hoc,←hnc] at hrun htrail
  rw [unifiedHunks]
  simp only [raw,hstart,hheader,hold,hnew]
  rw [hrun]
  simp [htrail]

theorem header_head (i n j m : ℤ) : (raw (unifiedHeader i n j m)).text.head?≠some 92 := by
  have hhead : (raw (unifiedHeader i n j m)).text.head?=some 64 := rfl
  rw [hhead]
  decide

theorem windowsText_head (i j : ℕ) (xs : List (Window Line)) :
    ∀l∈((windowsText unifiedWindow i j xs).map raw).head?,l.text.head?≠some 92 := by
  cases xs with
  | nil => simp [windowsText]
  | cons x xs =>
    intro l hl
    simp only [windowsText,unifiedWindow,cons_append,map_cons,head?_cons,Option.mem_some_iff] at hl
    subst hl
    exact header_head _ _ _ _

def windowHunk (i j : ℕ) (x : Window Line) : Hunk where
  oldStart := (i+x.skip.length : ℕ)
  oldCount := (oldSide x.lead x.chunks).length
  newStart := (j+x.skip.length : ℕ)
  newCount := (newSide x.lead x.chunks).length
  lines := hunkBody x.lead x.chunks

/-- The hunks of windows whose parts begin at line `i` of the old and line `j` of the new file. -/
def windowHunks : ℕ→ℕ→List (Window Line)→List Hunk
  | _,_,[] => []
  | i,j,x::xs => windowHunk i j x::windowHunks (i+x.old.length) (j+x.new.length) xs

theorem reads_windowHunks (i j : ℕ) (xs : List (Window Line)) :
    Reads i xs (windowHunks i j xs) := by
  induction xs generalizing i j with
  | nil => exact Reads.nil i
  | cons x xs ih => exact Reads.cons rfl rfl rfl (ih _ _)

/-- `Parse` reads back the hunks of the windows. -/
theorem unifiedHunks_windows {xs : List (Window Line)} {i j fuel : ℕ}
    (hfuel : xs.length≤fuel) (ho : (i : ℤ)+(xs.flatMap Window.old).length+1<2^63)
    (hn : (j : ℤ)+(xs.flatMap Window.new).length+1<2^63) :
    unifiedHunks nm fuel ((windowsText unifiedWindow i j xs).map raw) =
      .ok (windowHunks i j xs,[]) := by
  induction xs generalizing i j fuel with
  | nil => cases fuel <;> rfl
  | cons x xs ih =>
    cases fuel with
    | zero => simp at hfuel
    | succ fuel =>
      simp only [flatMap_cons,length_append] at ho hn
      have hrun := @ih (i+x.old.length) (j+x.new.length) fuel (by simpa using hfuel)
        (by push_cast; omega) (by push_cast; omega)
      rw [Window.old,length_append] at ho
      rw [Window.new,length_append] at hn
      obtain ⟨old,new,hheader,hsold,hsnew⟩ := unifiedHunk?_header
        (i := (i+x.skip.length : ℕ)) (n := (oldSide x.lead x.chunks).length)
        (j := (j+x.skip.length : ℕ)) (m := (newSide x.lead x.chunks).length) (by omega)
        (by push_cast at ho ⊢; omega) (by push_cast at ho ⊢; omega) (.inl (by omega))
        (by push_cast at hn ⊢; omega) (by push_cast at hn ⊢; omega)
      have hstep := unifiedHunks_hunk nm fuel (h := windowHunk i j x) rfl hheader hsold hsnew
        (by simp [windowHunk,oldSeq_hunkBody]) (by simp [windowHunk,newSeq_hunkBody])
        (windowsText_head (i+x.old.length) (j+x.new.length) xs)
      rw [windowsText,unifiedWindow,map_append,map_cons]
      exact hstep.trans (by rw [hrun]; rfl)

theorem length_le_windowsText (i j : ℕ) (xs : List (Window Line)) :
    xs.length≤(windowsText unifiedWindow i j xs).length := by
  induction xs generalizing i j with
  | nil => simp
  | cons x xs ih =>
    have := ih (i+x.old.length) (j+x.new.length)
    simp only [windowsText,unifiedWindow,length_append,length_cons]
    omega

theorem printed_unifiedHeader (i n j m : ℤ) : Printed (unifiedHeader i n j m) := by
  have hrange : ∀x y,newline∉unifiedRange x y := by
    intro x y
    unfold unifiedRange
    split
    · exact newline_notMem_itoa _
    split
    · rw [mem_append,not_or]
      exact ⟨newline_notMem_itoa _,by decide⟩
    · rw [mem_append,mem_append,not_or,not_or]
      exact ⟨⟨newline_notMem_itoa _,by decide⟩,newline_notMem_itoa _⟩
  refine ⟨?_,?_⟩
  · simp only [unifiedHeader,mem_append,not_or]
    exact ⟨⟨⟨⟨by decide,hrange _ _⟩,by decide⟩,hrange _ _⟩,by decide⟩
  · rw [unifiedHeader,getLast?_append,show (ascii " @@").getLast?=some 64 from rfl,Option.some_or]
    decide

theorem printed_unifiedHunk (ha : ∀l∈sa.lines,Printed l)
    (hb : ∀l∈sb.lines,Printed l) {x : Span} {out : List Bytes}
    (h : unifiedHunk sa sb x gs=some out) : ∀l∈out,Printed l := by
  have hgroups : ∀(gs : List Group) (i j k : ℤ) (out : List Bytes),
      unifiedGroups sa sb i j gs=some (out,k)→∀l∈out,Printed l := by
    intro gs
    induction gs with
    | nil =>
      intro i j k out h
      obtain ⟨rfl,-⟩ : []=out ∧ i=k := by simpa [unifiedGroups] using h
      simp
    | cons g gs ih =>
      intro i j k out h
      simp only [unifiedGroups,Option.bind_eq_bind,Option.bind_eq_some_iff,Prod.exists] at h
      obtain ⟨common,hcommon,del,hdel,ins,hins,rest,k',hrest,rfl,rfl⟩ := h
      intro l hl
      simp only [mem_append] at hl
      rcases hl with ((hl | hl) | hl) | hl
      · exact printed_printRange ha ⟨by decide,by decide⟩ hcommon l hl
      · exact printed_printRange ha ⟨by decide,by decide⟩ hdel l hl
      · exact printed_printRange hb ⟨by decide,by decide⟩ hins l hl
      · exact ih _ _ _ _ hrest l hl
  simp only [unifiedHunk,Option.bind_eq_bind,Option.bind_eq_some_iff,Option.pure_def,
    Option.some.injEq,Prod.exists] at h
  obtain ⟨body,k,hbody,tail,htail,rfl⟩ := h
  intro l hl
  rw [mem_cons,mem_append] at hl
  rcases hl with rfl | hl | hl
  · exact printed_unifiedHeader _ _ _ _
  · exact hgroups _ _ _ _ _ hbody l hl
  · exact printed_printRange ha ⟨by decide,by decide⟩ htail l hl

theorem parseSections_unified (fuel : ℕ) (x y : Bytes) (rest : List RawLine) :
    parseSections (fuel+1) (raw (ascii "--- " ++ x)::raw (ascii "+++ " ++ y)::rest) =
      (do let (fp,rest) ← parseUnifiedFile (ascii "--- " ++ x) (ascii "+++ " ++ y) rest
          let files ← parseSections fuel rest
          pure (fp::files)) := by
  have hstrip : stripPatchIndent (raw (ascii "--- " ++ x)::raw (ascii "+++ " ++ y)::rest) =
      raw (ascii "--- " ++ x)::raw (ascii "+++ " ++ y)::rest := rfl
  have hindex : startsWith (ascii "Index:") (ascii "--- " ++ x)=false := rfl
  have hgit : startsWith (ascii "diff --git ") (ascii "--- " ++ x)=false := rfl
  rw [parseSections,hstrip]
  simp [raw,hindex,hgit]

/-- `Parse` on a unified header and the lines after it. -/
theorem parse_unified {x y : Bytes} {ls : List Bytes} (hx : newline∉x) (hy : newline∉y)
    (hls : ∀l∈ls,newline∉l) :
    ∃fp : FilePatch,parse (printLines ((ascii "--- " ++ x)::(ascii "+++ " ++ y)::ls)) =
      (do let (hunks,rest) ← unifiedHunks fp.newName ls.length (ls.map fun l => raw (trimCR l))
          let files ← parseSections (ls.length+1) rest
          pure ({ fp with hunks := hunks }::files)) := by
  refine ⟨{ oldName := extractName ((ascii "--- " ++ trimCR x).drop 4)
            newName := extractName ((ascii "+++ " ++ trimCR y).drop 4) },?_⟩
  rw [parse,splitRawLines_section ⟨by decide,by decide⟩ ⟨by decide,by decide⟩ hx hy hls]
  simp only [length_cons]
  rw [parseSections_unified,parseUnifiedFile,length_map]
  cases unifiedHunks (extractName ((ascii "+++ " ++ trimCR y).drop 4)) ls.length
      (ls.map fun l => raw (trimCR l)) with
  | error e => rfl
  | ok p =>
    simp only [ok_bind,pure_bind]
    cases parseSections (ls.length+1) p.2 <;> rfl

def unifiedPatch (a b : File) (n : ℤ) : Option Bytes := do
  let (sa,sb,gs) ← compare a b { context := n }
  let out ← emitUnified { context := n } sa sb gs
  pure (printLines out)

/-- The patch is one section, whose hunks, applied where they say, make the new file of the old. -/
def UnifiedRestores (a b : File) (n : ℤ) : Prop :=
  ∃data fp,unifiedPatch a b n=some data ∧ parse data=.ok [fp] ∧
    apply a.text.lines a.text.noEOL fp.hunks {} =
      some ⟨b.text.lines,b.text.noEOL,exactReports 0 fp.hunks,[]⟩

section
variable (ha : a.text.NoCR) (hb : b.text.NoCR)
include ha hb

/-- What `Parse` makes of the patch rests on the printed hunks only. -/
theorem parse_unifiedPatch {n : ℤ} {ls : List Bytes}
    (hcmp : compare a b { context := n }=some (sa,sb,gs))
    (hal : Aligned a b sa sb gs lead cs)
    (hemit : eachHunk n sa.lines.length (unifiedHunk sa sb) gs.length gs=some ls) :
    ∃(data : Bytes) (fp : FilePatch),unifiedPatch a b n=some data ∧ parse data =
      (do let (hunks,rest) ← unifiedHunks fp.newName ls.length (ls.map raw)
          let files ← parseSections (ls.length+1) rest
          pure ({ fp with hunks := hunks }::files)) := by
  have hls : ∀l∈ls,Printed l :=
    printed_eachHunk (fun x gs out h => printed_unifiedHunk
      (by rw [hal.sideOld.lines]; exact printed_lines ha)
      (by rw [hal.sideNew.lines]; exact printed_lines hb) h) hemit
  obtain ⟨fp,hparse⟩ := parse_unified (x := a.name++(ascii "\t" ++ a.stamp))
    (y := b.name++(ascii "\t" ++ b.stamp)) (by simp [a.name_line,a.stamp_line]; decide)
    (by simp [b.name_line,b.stamp_line]; decide) (fun l hl => (hls l hl).newline_notMem)
  rw [map_raw_trimCR hls] at hparse
  refine ⟨_,fp,?_,hparse⟩
  simp [unifiedPatch,hcmp,emitUnified,hemit,hal.sideOld.name,hal.sideOld.stamp,hal.sideNew.name,
    hal.sideNew.stamp]

/-- Where nothing overflows, `Parse` reads one section with the hunks of the windows. -/
theorem parse_of_fits {w : ℕ}
    (hmax : (w : ℤ)<2^63) (hcmp : compare a b { context := w }=some (sa,sb,gs))
    (hal : Aligned a b sa sb gs lead cs) (hw : WidthFits w gs) :
    ∃data fp,unifiedPatch a b w=some data ∧ parse data=.ok [fp] ∧
      fp.hunks=windowHunks 0 0 (windows w lead cs).1 := by
  have hemit := eachHunk_aligned hal hmax hw (unifiedHunk_prints hal.lines_old hal.lines_new)
  obtain ⟨data,fp,hdata,hparse⟩ := parse_unifiedPatch ha hb hcmp hal hemit
  have hlena := congrArg length (hal.old.trans (windows_old w lead cs))
  have hlenb := congrArg length (hal.new.trans (windows_new w lead cs))
  have hla := a.text.length_lines
  have hlb := b.text.length_lines
  simp only [Text.marked,length_markedLines,length_append] at hlena hlenb
  rw [unifiedHunks_windows fp.newName (length_le_windowsText 0 0 (windows w lead cs).1)
    (by push_cast; omega) (by push_cast; omega)] at hparse
  exact ⟨data,_,hdata,hparse,rfl⟩

theorem unifiedRestores_of_fits {w : ℕ} (hmax : (w : ℤ)<2^63)
    (hcmp : compare a b { context := w }=some (sa,sb,gs)) (hw : WidthFits w gs) :
    UnifiedRestores a b w := by
  obtain ⟨lead,cs,hal⟩ := compare_aligned hcmp rfl rfl rfl
  obtain ⟨data,fp,hdata,hparse,hhunks⟩ := parse_of_fits ha hb hmax hcmp hal hw
  have hreads := reads_windowHunks 0 0 (windows w lead cs).1
  rw [←hhunks] at hreads
  exact ⟨data,fp,hdata,hparse,apply_reads hal.old hal.new hal.proper hreads⟩

end

end Coreutils.UnifiedRoundTrip
