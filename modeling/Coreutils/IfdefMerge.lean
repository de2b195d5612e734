import Coreutils.Conditionals
import Coreutils.UnifiedWidths

/-!
# Both versions under conditionals

A unified diff applied with `ApplyIfdef` gives a text from which a preprocessor takes the old file
when the name is not defined and the new file when it is, as long as no changed block cuts a
conditional of the files.
-/

namespace Coreutils.IfdefMerge
open List Coreutils.Alignment Conditionals DiffGroups DiffSides GoText HunkWindows
open PatchParse PatchApply PatchExact UnifiedRoundTrip UnifiedWidths WindowHunks

def isIdentifier (s : Bytes) : Bool :=
  match s with
  | [] => false
  | c::_ => !isDigit c && s.all isWordByte

/-- The word after the `#` of a line, and what follows it. -/
def directive? (l : Bytes) : Option (Bytes×Bytes) :=
  match l.dropWhile isBlank with
  | 35::s =>
    some ((s.dropWhile isBlank).takeWhile isWordByte,(s.dropWhile isBlank).dropWhile isWordByte)
  | _ => none

/-- The line is an `#ifdef` or `#ifndef` of the name. -/
def namesDefine (define l : Bytes) : Bool :=
  match directive? l with
  | some (w,rest) =>
    (w == ascii "ifdef" || w == ascii "ifndef") &&
      (rest.dropWhile isBlank).takeWhile isWordByte == define
  | none => false

/-- What a line does to the conditionals, whatever their names are. -/
def shape (l : Bytes) : Role :=
  match directive? l with
  | some (w,_) =>
    if w=ascii "if" ∨ w=ascii "ifdef" ∨ w=ascii "ifndef" then .opens none
    else if w=ascii "else" then .turns
    else if w=ascii "elif" then .chains
    else if w=ascii "endif" then .closes
    else .plain
  | none => .plain

def role (define : Bytes) (defined : Bool) (l : Bytes) : Role :=
  if namesDefine define l then
    .opens (some (((directive? l).map Prod.fst == some (ascii "ifdef")) == defined))
  else shape l

/-- The lines a preprocessor leaves that knows only whether the name is defined. -/
def preprocess (define : Bytes) (defined : Bool) (ls : List Bytes) : Option (List Bytes) :=
  resolve (role define defined) [] ls

variable {define : Bytes}

theorem role_of_unnamed {l : Bytes} (h : namesDefine define l=false)
    (defined : Bool) : role define defined l=shape l := by
  rw [role,h]
  rfl

theorem shape_unnamed (l : Bytes) (b : Bool) : shape l≠.opens (some b) := by
  unfold shape
  split
  · split
    · simp
    split
    · simp
    · split
      · simp
      · split <;> simp
  · simp

theorem unnamed_role {ls : List Bytes} (h : ∀l∈ls,namesDefine define l=false) (defined : Bool) :
      Unnamed (role define defined) ls := by
  intro l hl b
  rw [role_of_unnamed (h l hl)]
  exact shape_unnamed l b

theorem balanced_role {ls : List Bytes}
    (h : ∀l∈ls,namesDefine define l=false) (defined : Bool) (d : ℕ) :
    balanced (role define defined) d ls=balanced shape d ls := by
  induction ls generalizing d with
  | nil => rfl
  | cons l ls ih =>
    rw [balanced,balanced,role_of_unnamed (h l (by simp))]
    cases depth (shape l) d with
    | none => rfl
    | some d' => exact ih (fun l hl => h l (by simp [hl])) d'

section
variable {define : Bytes} (hdef : isIdentifier define=true)
include hdef

theorem word_of_identifier : (define.dropWhile isBlank).takeWhile isWordByte=define := by
  cases define with
  | nil => simp [isIdentifier] at hdef
  | cons c t =>
    simp only [isIdentifier,Bool.and_eq_true,all_eq_true] at hdef
    have hblank : isBlank c=false := by
      have hc := hdef.2 c (by simp)
      by_contra hb
      simp only [isBlank,Bool.not_eq_false,Bool.or_eq_true,beq_iff_eq] at hb
      rcases hb with rfl | rfl <;> simp [isWordByte,isDigit] at hc
    rw [dropWhile_cons_of_neg (by simp [hblank])]
    simpa using @takeWhile_append_of_pos _ _ _ [] hdef.2

variable (defined : Bool)

theorem role_names {l w : Bytes} (hdir : directive? l=some (w,32::define))
    (hw : w=ascii "ifdef" ∨ w=ascii "ifndef") :
    role define defined l=.opens (some ((w == ascii "ifdef") == defined)) := by
  have hnames : namesDefine define l=true := by
    simp [namesDefine,hdir,isBlank,word_of_identifier hdef,hw]
  rw [role,hnames,hdir]
  rfl

theorem role_ifdef : role define defined (ascii "#ifdef " ++ define)=.opens (some defined) := by
  rw [role_names hdef defined (w := ascii "ifdef") rfl (.inl rfl)]
  cases defined <;> rfl

theorem role_ifndef : role define defined (ascii "#ifndef " ++ define)=.opens (some !defined) := by
  rw [role_names hdef defined (w := ascii "ifndef") rfl (.inr rfl)]
  cases defined <;> rfl

omit hdef in
theorem role_else : role define defined (ascii "#else")=.turns := by
  have hnames : namesDefine define (ascii "#else")=false := rfl
  rw [role_of_unnamed hnames]
  rfl

omit hdef in
theorem role_endif : role define defined (ascii "#endif /* " ++ define++ascii " */")=.closes := by
  have hnames : namesDefine define (ascii "#endif /* " ++ define++ascii " */")=false := rfl
  rw [role_of_unnamed hnames]
  rfl

/-- The written conditional leaves the old part without the name and the new part with it. -/
theorem resolve_conditional {old new : List Bytes}
    (hold : balanced (role define defined) 0 old=true)
    (hnew : balanced (role define defined) 0 new=true) {st : List Frame}
    (hst : ∀f∈st,f=.other) (ls : List Bytes) :
    resolve (role define defined) st (conditional define old new++ls) =
      (resolve (role define defined) st ls).map ((if defined then new else old)++·) := by
  rw [conditional]
  by_cases ho : old=[]
  · subst ho
    by_cases hn : new=[]
    · subst hn
      cases defined <;> simp
    · rw [if_pos hn]
      have hb := resolve_branch (role_ifdef hdef defined) (role_endif defined) hnew hst ls
      simpa using hb
  · by_cases hn : new=[]
    · subst hn
      rw [if_pos ho]
      have hb := resolve_branch (role_ifndef hdef defined) (role_endif defined) hold hst ls
      cases defined <;> simpa using hb
    · rw [if_pos ⟨ho,hn⟩]
      have hb := resolve_branches (role_ifndef hdef defined) (role_else defined)
        (role_endif defined) hold hnew hst ls
      cases defined <;> simpa using hb

end

def mergedBlock (define : Bytes) (c : Chunk Line) : List Line :=
  (conditional define (c.del.map Line.text) (c.ins.map Line.text)).map (⟨·,false⟩)

def merged (define : Bytes) (lead : List Line) (cs : List (Chunk Line)) : List Line :=
  side (mergedBlock define) lead cs

theorem map_text_merged_cons (define : Bytes) (lead : List Line) (c : Chunk Line)
    (cs : List (Chunk Line)) : (merged define lead (c::cs)).map Line.text=lead.map Line.text ++
      (conditional define (c.del.map Line.text) (c.ins.map Line.text) ++
        (merged define c.keep cs).map Line.text) := by
  simp [merged,side_cons,mergedBlock,Function.comp_def]

/-- The lines of a side are the lines of its blocks. -/
theorem preprocess_merged (hdef : isIdentifier define=true) (defined : Bool)
    {lead : List Line} {cs : List (Chunk Line)}
    (hold : ∀l∈oldSide lead cs,namesDefine define l.text=false)
    (hnew : ∀l∈newSide lead cs,namesDefine define l.text=false)
    (hbal : ∀c∈cs,balanced shape 0 (c.del.map Line.text)=true ∧
      balanced shape 0 (c.ins.map Line.text)=true) {st : List Frame} (hst : ∀f∈st,f=.other) :
    resolve (role define defined) st ((merged define lead cs).map Line.text) =
      some ((if defined then newSide lead cs else oldSide lead cs).map Line.text) := by
  induction cs generalizing lead st with
  | nil =>
    have hnone : ∀l∈lead.map Line.text,namesDefine define l=false := by simpa using hold
    obtain ⟨st',hst',hrest⟩ := resolve_unnamed (unnamed_role hnone defined) hst
    have hend := hrest []
    rw [resolve,if_pos (by simpa using hst')] at hend
    simpa [merged] using hend
  | cons c cs ih =>
    rw [oldSide_cons] at hold
    rw [newSide_cons] at hnew
    have hlead : ∀l∈lead.map Line.text,namesDefine define l=false :=
      forall_mem_map.mpr fun l hl => hold l (by simp [hl])
    have hdel : ∀l∈c.del.map Line.text,namesDefine define l=false :=
      forall_mem_map.mpr fun l hl => hold l (by simp [hl])
    have hins : ∀l∈c.ins.map Line.text,namesDefine define l=false :=
      forall_mem_map.mpr fun l hl => hnew l (by simp [hl])
    obtain ⟨st',hst',hrest⟩ := resolve_unnamed (unnamed_role hlead defined) hst
    have hc := hbal c (by simp)
    rw [map_text_merged_cons,hrest,resolve_conditional hdef defined
      (by rw [balanced_role hdel]; exact hc.1) (by rw [balanced_role hins]; exact hc.2) hst',
      ih (fun l hl => hold l (by simp [hl])) (fun l hl => hnew l (by simp [hl]))
        (fun c hc => hbal c (by simp [hc])) hst',oldSide_cons,newSide_cons]
    cases defined <;> simp

section
variable {old A B : List Bytes} {define : Bytes}

/-- The reader of a changed block takes the deleted and the added lines up to a common one. -/
theorem changeParts_block {del ins : List Line} {rest : List HunkLine}
    (hfit : old=A++(del.map Line.text++B)) (hrest : ∀l∈rest.head?,l.kind=.lineContext) :
    changeParts old (del.map (hunkLine .lineDelete)++(ins.map (hunkLine .lineAdd)++rest)) A.length =
      some (del.map Line.text,ins.map Line.text,((A.length+del.length : ℕ) : ℤ),rest) := by
  induction del generalizing A with
  | nil =>
    have hadd : changeParts old (ins.map (hunkLine .lineAdd)++rest) A.length =
        some ([],ins.map Line.text,(A.length : ℤ),rest) := by
      induction ins with
      | nil =>
        cases rest with
        | nil => rfl
        | cons l rest =>
          have hl := hrest l (by simp)
          simp [changeParts,hl]
      | cons l ins ih =>
        rw [map_cons,cons_append,changeParts]
        rw [ih]
        rfl
    simpa using hadd
  | cons l del ih =>
    have hget : lineAt? old A.length=some l.text := by
      rw [hfit,map_cons]
      exact lineAt?_append A _ l.text
    have hnext := ih (A := A++[l.text]) (by rw [hfit]; simp)
    have hplace : ((A++[l.text]).length : ℤ)=(A.length : ℤ)+1 := by simp
    have hend : (A++[l.text]).length+del.length=A.length+(l::del).length := by
      simp only [length_cons]
      omega
    rw [hplace,hend] at hnext
    rw [map_cons,cons_append,changeParts]
    rw [hget,Option.bind_eq_bind,hnext]
    rfl

theorem ifdefLines_context {lead : List Line} {rest : List HunkLine} {fuel : ℕ}
    (hfit : old=A++(lead.map Line.text++B)) {out : List Bytes}
    (hrest : ifdefLines old define fuel rest ((A.length+lead.length : ℕ) : ℤ)=some out) :
    ifdefLines old define (lead.length+fuel) (lead.map (hunkLine .lineContext)++rest)
      A.length=some (lead.map Line.text++out) := by
  induction lead generalizing A with
  | nil => simpa using hrest
  | cons l lead ih =>
    have hget : lineAt? old A.length=some l.text := by
      rw [hfit,map_cons]
      exact lineAt?_append A _ l.text
    have hnext := ih (A := A++[l.text]) (by rw [hfit]; simp) (by
      rw [←hrest]
      congr 1
      simp
      omega)
    rw [length_append,length_singleton,Nat.cast_add,Nat.cast_one] at hnext
    rw [length_cons,add_right_comm,map_cons,cons_append,ifdefLines]
    rw [hget,Option.bind_eq_bind,hnext]
    rfl

theorem ifdefLines_change {l : HunkLine} {ls rest : List HunkLine} {ti ti' : ℤ} {fuel : ℕ}
    {oldPart newPart out : List Bytes} (hl : l.kind≠.lineContext)
    (hparts : changeParts old (l::ls) ti=some (oldPart,newPart,ti',rest))
    (hrest : ifdefLines old define fuel rest ti'=some out) :
    ifdefLines old define (fuel+1) (l::ls) ti = some (conditional define oldPart newPart++out) := by
  rw [ifdefLines,if_neg hl,hparts,Option.bind_eq_bind,Option.bind_some]
  simp only [hrest]
  rfl

/-- What follows a chunk's changed block begins with a common line. -/
theorem hunkBody_head {c : Chunk Line} {cs : List (Chunk Line)} (hp : Proper (c::cs)) :
    ∀l∈(hunkBody c.keep cs).head?,l.kind=.lineContext := by
  have hcontext : ∀(k : List Line) (rest : List HunkLine),k≠[]→
      ∀l∈(k.map (hunkLine .lineContext)++rest).head?,l.kind=.lineContext := by
    intro k rest hk l hl
    obtain ⟨x,k,rfl⟩ := exists_cons_of_ne_nil hk
    simp only [map_cons,cons_append,head?_cons,Option.mem_some_iff] at hl
    rw [←hl]
    rfl
  cases cs with
  | nil =>
    by_cases hk : c.keep=[]
    · simp [hunkBody,hk]
    · have := hcontext c.keep [] hk
      rwa [append_nil] at this
  | cons c' cs => exact hcontext c.keep _ hp.keep_ne_nil

/-- The loop over the lines of a window's hunk writes the window's part of the merged text. -/
theorem ifdefLines_hunkBody {lead : List Line} {cs : List (Chunk Line)} (hp : Proper cs) {fuel : ℕ}
    (hfit : old=A++((oldSide lead cs).map Line.text++B)) (hfuel : (hunkBody lead cs).length≤fuel) :
    ifdefLines old define fuel (hunkBody lead cs) A.length =
      some ((merged define lead cs).map Line.text) := by
  induction cs generalizing A lead fuel with
  | nil =>
    obtain ⟨k,rfl⟩ := Nat.exists_eq_add_of_le hfuel
    have hend : ifdefLines old define k [] ((A.length+lead.length : ℕ) : ℤ)=some [] := by
      cases k <;> rfl
    have hrun := ifdefLines_context (by simpa using hfit) hend
    simpa [hunkBody,merged] using hrun
  | cons c cs ih =>
    rw [oldSide_cons] at hfit
    simp only [hunkBody,length_append,length_map] at hfuel
    -- the block is read in one turn, so a line of fuel is enough for it
    have hchanges := hp.changes c (by simp)
    rw [←length_pos_iff,←length_pos_iff] at hchanges
    obtain ⟨k,rfl⟩ : ∃k,fuel=lead.length+(k+1) := ⟨fuel-lead.length-1,by omega⟩
    have hkeep : ifdefLines old define k (hunkBody c.keep cs)
        ((A++(lead.map Line.text++c.del.map Line.text)).length : ℕ) =
        some ((merged define c.keep cs).map Line.text) :=
      ih hp.tail (by rw [hfit]; simp) (by omega)
    have hblock := @changeParts_block old (A++lead.map Line.text)
      ((oldSide c.keep cs).map Line.text++B) c.del c.ins _ (by rw [hfit]; simp) (hunkBody_head hp)
    have hplace : (A++lead.map Line.text).length+c.del.length =
        (A++(lead.map Line.text++c.del.map Line.text)).length := by
      simp only [length_append,length_map]
      omega
    obtain ⟨l,ls,hls,hl⟩ : ∃l ls,c.del.map (hunkLine .lineDelete) ++
        (c.ins.map (hunkLine .lineAdd)++hunkBody c.keep cs)=l::ls ∧
        l.kind≠.lineContext := by
      cases hdel : c.del with
      | cons l del => exact ⟨_,_,rfl,by simp [hunkLine]⟩
      | nil =>
        cases hins : c.ins with
        | cons l ins => exact ⟨_,_,rfl,by simp [hunkLine]⟩
        | nil => simp [hdel,hins] at hchanges
    rw [hls,hplace] at hblock
    have hrun := ifdefLines_change hl hblock hkeep
    rw [length_append,length_map,←hls] at hrun
    rw [map_text_merged_cons]
    exact ifdefLines_context (by rw [hfit,map_append,append_assoc]) hrun

end

theorem noEOL_hunkBody {lead : List Line} {cs : List (Chunk Line)}
    (hold : ∀l∈oldSide lead cs,l.noEOL=false) (hnew : ∀l∈newSide lead cs,l.noEOL=false) :
    ∀l∈hunkBody lead cs,l.noEOL=false := by
  induction cs generalizing lead with
  | nil =>
    simp only [hunkBody]
    simpa [hunkLine] using hold
  | cons c cs ih =>
    rw [oldSide_cons] at hold
    rw [newSide_cons] at hnew
    have hrest := @ih c.keep (fun l hl => hold l (by simp [hl])) (fun l hl => hnew l (by simp [hl]))
    simp only [hunkBody,forall_mem_append,forall_mem_map]
    exact ⟨fun l hl => hold l (by simp [hl]),fun l hl => hold l (by simp [hl]),
      fun l hl => hnew l (by simp [hl]),hrest⟩

/-- One turn of the loop of `ApplyIfdef`, on the hunk of a window. -/
theorem ifdefHunk_window {old A B : List Bytes} (hn : (old.length : ℤ)<2^62) (define : Bytes)
    (i : ℕ) {x : Window Line} {h : Hunk} (hp : Proper x.chunks)
    (hstart : h.oldStart=(A.length+x.skip.length : ℕ))
    (hcount : h.oldCount=(oldSide x.lead x.chunks).length)
    (hlines : h.lines=hunkBody x.lead x.chunks) (hfit : old=A++(x.old.map Line.text++B))
    (hflags : ∀l∈h.lines,l.noEOL=false) {st : IfdefState} (hcur : st.cur=A.length)
    (hflag : st.noFinalNewline=false) : ∃st',ifdefHunk old {} define i h st=some st' ∧
      st'.out=st.out++(x.skip++merged define x.lead x.chunks).map Line.text ∧
      st'.cur=((A++x.old.map Line.text).length : ℕ) ∧ st'.noFinalNewline=false ∧
      st'.rejects=st.rejects := by
  have hseq : oldSeq h.lines=(oldSide x.lead x.chunks).map Line.text := by
    rw [hlines,oldSeq_hunkBody]
  have hfit' : old=(A++x.skip.map Line.text)++(oldSeq h.lines++B) := by
    rw [hfit,hseq,Window.old]
    simp
  have hlen := congrArg length hfit
  simp only [length_append,length_map,Window.old] at hlen
  have hloc := locateHunk_exact {} hfit' (by rw [hseq,length_map]; exact hcount) hn
  have hplace : ((A++x.skip.map Line.text).length : ℤ)=h.oldStart := by
    rw [hstart,length_append,length_map]
  rw [hplace] at hloc
  have hskip := slice?_block A (x.skip.map Line.text) (oldSeq h.lines++B)
  rw [←append_assoc,←hfit',length_map,←hstart,←hcur] at hskip
  have hbody : ifdefLines old define h.lines.length h.lines h.oldStart =
      some ((merged define x.lead x.chunks).map Line.text) := by
    rw [←hplace]
    have := @ifdefLines_hunkBody old (A++x.skip.map Line.text) B define x.lead x.chunks hp
      h.lines.length (by rw [hfit',hseq]) (by rw [hlines])
    rwa [←hlines] at this
  have hend : wrap64 (h.oldStart+h.oldCount)=((A++x.old.map Line.text).length : ℕ) := by
    rw [hstart,hcount,wrap64_of_range (by omega) (by omega)]
    simp only [length_append,length_map,Window.old]
    push_cast
    ring
  rw [ifdefHunk,hloc]
  simp only [Option.bind_eq_bind,Option.bind_some]
  rw [if_neg (by rw [hcur,hstart]; push_cast; simp),hskip]
  simp only [hbody,hend]
  refine ⟨_,rfl,by simp,rfl,?_,rfl⟩
  split
  · split
    · rename_i l hl
      split
      · exact hflags l (mem_of_getLast? hl)
      · rfl
    · rfl
  · exact hflag

/-- The run of the loop, on hunks that state windows. -/
theorem ifdefHunks_reads {old : List Bytes} (hn : (old.length : ℤ)<2^62) (define : Bytes)
    {i : ℕ} {xs : List (Window Line)} {hs : List Hunk} (hr : Reads i xs hs)
    (hp : ∀x∈xs,Proper x.chunks) (hflags : ∀h∈hs,∀l∈h.lines,l.noEOL=false)
    {A final : List Bytes} (hA : A.length=i)
    (hfit : old=A++((xs.flatMap Window.old).map Line.text++final)) (idx : ℕ)
    {st : IfdefState} (hcur : st.cur=i) (hflag : st.noFinalNewline=false) :
    ∃st',ifdefHunks old {} define idx hs st=some st' ∧ st'.out=st.out ++
        (xs.flatMap fun x => x.skip++merged define x.lead x.chunks).map Line.text ∧
      st'.cur=((A++(xs.flatMap Window.old).map Line.text).length : ℕ) ∧
      st'.noFinalNewline=false ∧ st'.rejects=st.rejects := by
  induction hr generalizing A idx st with
  | nil i => exact ⟨st,rfl,by simp,by simp [hcur,hA],hflag,rfl⟩
  | @cons i x xs h hs hstart hcount hlines hrest ih =>
    subst hA
    obtain ⟨st₁,hrun₁,hout₁,hcur₁,hflag₁,hrej₁⟩ := ifdefHunk_window hn define idx
      (hp x (by simp)) hstart hcount hlines (B := (xs.flatMap Window.old).map Line.text++final)
      (by rw [hfit]; simp) (hflags h (by simp)) hcur hflag
    obtain ⟨st₂,hrun₂,hout₂,hcur₂,hflag₂,hrej₂⟩ := ih (fun x hx => hp x (by simp [hx]))
      (fun h hh => hflags h (by simp [hh])) (A := A++x.old.map Line.text) (by simp)
      (by rw [hfit]; simp) (idx+1) (hcur₁.trans (by simp)) hflag₁
    refine ⟨st₂,by rw [ifdefHunks,hrun₁]; exact hrun₂,?_,?_,hflag₂,hrej₂.trans hrej₁⟩
    · rw [hout₂,hout₁]
      simp
    · rw [hcur₂]
      simp

/-- Every changed block of the two files closes the conditionals it opens and touches no other. -/
def BlocksBalanced (a b : File) (gs : List Group) : Prop :=
  ∀g∈gs,balanced shape 0 ((a.text.lines.take g.a1).drop g.a0)=true ∧
    balanced shape 0 ((b.text.lines.take g.b1).drop g.b0)=true

/-- The patch is read as one section, and what `ApplyIfdef` makes of it on the old file is
preprocessed to the old file without the name and to the new file with it. -/
def BothSurvive (a b : File) (n : ℤ) (define : Bytes) : Prop :=
  ∃data fp r,unifiedPatch a b n=some data ∧ parse data=.ok [fp] ∧
    applyIfdef a.text.lines a.text.noEOL fp.hunks {} define=some r ∧ r.noFinalNewline=false ∧
    preprocess define false r.lines=some a.text.lines ∧
    preprocess define true r.lines=some b.text.lines

theorem noEOL_marked {t : Text} (h : t.noEOL=false) : ∀l∈t.marked,l.noEOL=false := by
  rw [Text.marked,h]
  induction t.lines with
  | nil => simp [markedLines]
  | cons l ls ih =>
    rw [markedLines_cons,forall_mem_cons]
    exact ⟨by simp,ih⟩

theorem noEOL_reads {i : ℕ} {xs : List (Window Line)} {hs : List Hunk} (hr : Reads i xs hs)
    (hold : ∀l∈xs.flatMap Window.old,l.noEOL=false)
    (hnew : ∀l∈xs.flatMap Window.new,l.noEOL=false) : ∀h∈hs,∀l∈h.lines,l.noEOL=false := by
  induction hr with
  | nil i => simp
  | @cons i x xs h hs hstart hcount hlines hrest ih =>
    rw [flatMap_cons,forall_mem_append] at hold hnew
    rw [forall_mem_cons]
    refine ⟨?_,ih hold.2 hnew.2⟩
    rw [hlines]
    exact noEOL_hunkBody (fun l hl => hold.1 l (mem_append_right _ hl))
      (fun l hl => hnew.1 l (mem_append_right _ hl))

theorem applyIfdef_reads {a b : File} {lead : List Line} {cs : List (Chunk Line)} {w : ℕ}
    (hold : a.text.marked=oldSide lead cs) (hnew : b.text.marked=newSide lead cs)
    (hp : Proper cs) (ha : a.text.noEOL=false) (hb : b.text.noEOL=false) {hs : List Hunk}
    (hr : Reads 0 (windows w lead cs).1 hs) (define : Bytes) :
    ∃r,applyIfdef a.text.lines a.text.noEOL hs {} define=some r ∧ r.noFinalNewline=false ∧
      r.lines=(merged define lead cs).map Line.text := by
  have hlines : a.text.lines=((windows w lead cs).1.flatMap Window.old).map Line.text ++
      (windows w lead cs).2.map Line.text := by
    rw [←map_append,←windows_old,←hold,Text.marked,markedLines_map_text]
  have hflags : ∀h∈hs,∀l∈h.lines,l.noEOL=false := by
    have ha' := noEOL_marked ha
    have hb' := noEOL_marked hb
    rw [hold,windows_old w] at ha'
    rw [hnew,windows_new w] at hb'
    simp only [forall_mem_append] at ha' hb'
    exact noEOL_reads hr ha'.1 hb'.1
  have hsize := a.text.length_lines
  obtain ⟨st,hrun,hout,hcur,hflag,-⟩ := @ifdefHunks_reads a.text.lines (by exact_mod_cast hsize)
    define 0 _ _ hr (windows_proper hp) hflags [] _ rfl hlines 0 { noFinalNewline := a.text.noEOL }
    rfl ha
  have hrest : slice? a.text.lines st.cur a.text.lines.length =
      some ((windows w lead cs).2.map Line.text) := by
    have := slice?_block (((windows w lead cs).1.flatMap Window.old).map Line.text)
      ((windows w lead cs).2.map Line.text) []
    rw [append_nil,←length_append,←hlines] at this
    rwa [hcur]
  refine ⟨⟨st.out++(windows w lead cs).2.map Line.text,false,st.reports,st.rejects⟩,?_,rfl,?_⟩
  · have horient : orient {} hs=hs := rfl
    simp only [applyIfdef,horient,Option.bind_eq_bind]
    rw [hrun,Option.bind_some,hrest,ha,hflag,ite_self]
    rfl
  · rw [hout,merged,windows_side (fun _ _ => rfl) w lead cs]
    simp [merged]

/-- The unified diff of two files, applied with a name, keeps both of them, if no line is a
conditional on the name and no changed block cuts a conditional. -/
theorem bothSurvive_of_balanced {a b : File} (ha : a.text.NoCR) (hb : b.text.NoCR)
    (hea : a.text.noEOL=false) (heb : b.text.noEOL=false) {n : ℤ} (h₀ : 0≤n) (hn : n<2^62)
    (hdef : isIdentifier define=true) (hna : ∀l∈a.text.lines,namesDefine define l=false)
    (hnb : ∀l∈b.text.lines,namesDefine define l=false)
    {sa sb : Side} {gs : List Group} (hcmp : compare a b { context := n }=some (sa,sb,gs))
    (hbal : BlocksBalanced a b gs) : BothSurvive a b n define := by
  obtain ⟨w,rfl⟩ := Int.eq_ofNat_of_zero_le h₀
  obtain ⟨lead,cs,hal⟩ := compare_aligned hcmp rfl rfl rfl
  obtain ⟨data,fp,hdata,hparse,hhunks⟩ :=
    parse_of_fits ha hb (by omega) hcmp hal (.inl (by exact_mod_cast hn))
  have hreads := reads_windowHunks 0 0 (windows w lead cs).1
  rw [←hhunks] at hreads
  obtain ⟨r,hr,hflag,hlines⟩ :=
    applyIfdef_reads hal.old hal.new hal.proper hea heb hreads define
  have hold : (oldSide lead cs).map Line.text=a.text.lines := by
    rw [←hal.old,Text.marked,markedLines_map_text]
  have hnew : (newSide lead cs).map Line.text=b.text.lines := by
    rw [←hal.new,Text.marked,markedLines_map_text]
  have hblocks : ∀c∈cs,balanced shape 0 (c.del.map Line.text)=true ∧
      balanced shape 0 (c.ins.map Line.text)=true := by
    intro c hc
    obtain ⟨g,hg,hdel,hins⟩ := groupsOf_blocks [] [] lead cs c hc
    have hg' := hbal g (by rw [hal.groups]; exact hg)
    rw [nil_append] at hdel hins
    rwa [←hold,←hnew,←map_take,←map_drop,←map_take,←map_drop,hdel,hins] at hg'
  have hpre : ∀defined,preprocess define defined r.lines =
      some ((if defined then newSide lead cs else oldSide lead cs).map Line.text) := by
    intro defined
    rw [hlines]
    refine preprocess_merged hdef defined (fun l hl => hna _ ?_) (fun l hl => hnb _ ?_) hblocks
      (by simp)
    · rw [←hold]
      exact mem_map_of_mem hl
    · rw [←hnew]
      exact mem_map_of_mem hl
  refine ⟨data,fp,r,hdata,hparse,hr,hflag,?_,?_⟩
  · rw [hpre false,←hold]
    rfl
  · rw [hpre true,←hnew]
    rfl

theorem bothSurvive_three : BothSurvive threeLines twoChanged 3 (ascii "FEATURE") :=
  bothSurvive_of_balanced (by unfold Text.NoCR; decide) (by unfold Text.NoCR; decide) (by decide)
    (by decide) (by decide) (by decide) (by decide) (by decide) (by decide) rfl
    (by unfold BlocksBalanced; decide)

def twoBranches : File where
  text := ⟨printLines [ascii "#ifdef X",ascii "a",ascii "#else",ascii "b",ascii "#endif"],
    by decide,by decide⟩
  name := ascii "two"
  stamp := ascii "first"
  name_line := by decide
  stamp_line := by decide

def oneBranch : File where
  text := ⟨printLines [ascii "#ifdef X",ascii "a",ascii "#endif"],by decide,by decide⟩
  name := ascii "one"
  stamp := ascii "second"
  name_line := by decide
  stamp_line := by decide

/-- The deleted block takes the `#else` of another conditional along, and there it ends the branch
of the written one. -/
theorem not_bothSurvive_twoBranches :
    (∀l∈twoBranches.text.lines,namesDefine (ascii "FEATURE") l=false) ∧
      (∀l∈oneBranch.text.lines,namesDefine (ascii "FEATURE") l=false) ∧
      ¬ BothSurvive twoBranches oneBranch 3 (ascii "FEATURE") := by
  refine ⟨by decide,by decide,?_⟩
  rintro ⟨data,fp,r,hdata,hparse,happly,-,hold,-⟩
  have hlines : ((unifiedPatch twoBranches oneBranch 3).bind fun data =>
      (parse data).toOption.bind fun files => files.head?.bind fun fp =>
        (applyIfdef twoBranches.text.lines twoBranches.text.noEOL fp.hunks {}
          (ascii "FEATURE")).bind fun r => preprocess (ascii "FEATURE") false r.lines) =
      some [ascii "#ifdef X",ascii "a",ascii "#endif"] := by
    decide
  simp only [hdata,Option.bind_some,hparse,Except.toOption,head?_cons,happly,hold] at hlines
  revert hlines
  decide

end Coreutils.IfdefMerge
