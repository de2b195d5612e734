import Coreutils.SplitSuffixes
import Mathlib.Data.List.ModifyLast

/-!
# The pieces of split -C

`splitLineBytes` fills each piece to its size before it opens the next. The pieces are the blocks of
that size, and a line stays whole exactly if no block ends inside it.
-/

namespace Coreutils.SplitPieces
open List GoText SplitSuffixes

/-- `outFiles`, with the name and content of every file made so far; the last one is open. -/
structure OutFiles where
  pre : Bytes
  sfx : Suffixer
  suffix : Bytes
  files : List (Bytes×Bytes) := []
  deriving DecidableEq

def OutFiles.contents (o : OutFiles) : List Bytes := o.files.map Prod.snd

/-- `outFiles.nextFile`, with files that can be created. -/
def OutFiles.nextFile (o : OutFiles) : ExceptT Bytes Option OutFiles :=
  o.sfx.next.map fun
    | (.error e,_) => .error e
    | (.ok suf,sfx) => .ok { o with sfx,files := o.files++[(o.pre++suf++o.suffix,[])] }

/-- What the loops do when a file is full. -/
def OutFiles.opened (o : OutFiles) (full : Prop) [Decidable full] : ExceptT Bytes Option OutFiles :=
  if full then o.nextFile else pure o

def OutFiles.write (o : OutFiles) (p : Bytes) : OutFiles :=
  { o with files := o.files.modifyLast fun (name,content) => (name,content++p) }

structure Filling where
  out : OutFiles
  inFile : ℕ := 0

def Filling.write (perFile inFile : ℕ) (out : OutFiles) (p : Bytes) : Filling where
  out := out.write p
  inFile := if perFile ≤ inFile+p.length then 0 else inFile+p.length

/-- The inner loop of `splitLineBytes`; the first argument is fuel. -/
def fillLine (perFile : ℕ) : ℕ→Bytes→Filling→ExceptT Bytes Option Filling
  | _,[],st => pure st
  | 0,_::_,_ => none
  | fuel+1,c::s,st => do
    let out ← st.out.opened (st.inFile=0)
    let take := min (c::s).length (perFile-st.inFile)
    fillLine perFile fuel ((c::s).drop take)
      (Filling.write perFile st.inFile out ((c::s).take take))

def separator : Bytes→UInt8
  | [c] => c
  | _ => newline

def splitLineBytes (data : Bytes) (out : OutFiles) (perFile : ℕ) (sepStr : Bytes) :
    ExceptT Bytes Option OutFiles := do
  let lines := readLines (separator sepStr) [] data
  let st ← lines.foldlM (fun st line => fillLine perFile line.length line st) { out }
  return st.out

/-- All pieces have the full size, but for an open one with the given number of bytes. -/
def Blocks (size inFile : ℕ) (cs : List Bytes) : Prop :=
  inFile<size ∧ ∃ps p,(∀q∈ps,q.length=size) ∧ p.length=inFile ∧
    cs=if inFile=0 then ps else ps++[p]

variable {size : ℕ} {sfx : Suffixer} {o : OutFiles}

theorem flatten_length {α : Type} {ps : List (List α)} (h : ∀q∈ps,q.length=size) :
    ps.flatten.length=ps.length*size := by
  rw [length_flatten,map_congr_left h]
  simp

section
variable {inFile : ℕ} {cs : List Bytes} (h : Blocks size inFile cs)

include h

theorem Blocks.length_le {q : Bytes} (hq : q∈cs) : q.length ≤ size := by
  obtain ⟨hlt,ps,p,hps,hp,rfl⟩ := h
  split at hq
  · exact (hps q hq).le
  · rcases mem_append.mp hq with hq | hq
    · exact (hps q hq).le
    · rw [mem_singleton.mp hq]
      omega

/-- The full pieces in front, and how far they reach. -/
theorem Blocks.exists_full : ∃ps qs,cs=ps++qs ∧ (∀q∈ps,q.length=size) ∧
    qs.length≤1 ∧ cs.flatten.length<(ps.length+1)*size := by
  obtain ⟨hlt,ps,p,hps,hp,hcs⟩ := h
  have hflat := flatten_length hps
  have hnext : (ps.length+1)*size=ps.length*size+size := Nat.succ_mul _ _
  split at hcs
  · exact ⟨ps,[],by simpa using hcs,hps,by simp,by rw [hcs]; omega⟩
  · refine ⟨ps,[p],hcs,hps,le_rfl,?_⟩
    rw [hcs,flatten_append,length_append]
    simp only [flatten_cons,flatten_nil,append_nil]
    omega

theorem Blocks.end_eq {as bs : List Bytes} (hcs : cs=as++bs) (hbs : bs≠[]) :
    as.flatten.length=as.length*size := by
  obtain ⟨ps,qs,hfull,hps,hqs,-⟩ := h.exists_full
  have hle : as.length≤ps.length := by
    have := congrArg length (hcs.symm.trans hfull)
    have := length_pos_iff.mpr hbs
    simp only [length_append] at *
    omega
  have has : as <+: ps :=
    prefix_of_prefix_length_le (hcs ▸ prefix_append as bs) (hfull ▸ prefix_append ps qs)
      hle
  exact flatten_length fun q hq => hps q (has.subset hq)

/-- Every multiple of the size inside the text is the end of a piece. -/
theorem Blocks.exists_end {k : ℕ} (hk : k*size<cs.flatten.length) :
    ∃as bs,cs=as++bs ∧ as.flatten.length=k*size := by
  obtain ⟨ps,qs,hfull,hps,-,hlt⟩ := h.exists_full
  have hle : k≤ps.length := by
    have := lt_of_mul_lt_mul_right (hk.trans hlt) (Nat.zero_le size)
    omega
  refine ⟨ps.take k,ps.drop k++qs,?_,?_⟩
  · rw [←append_assoc,take_append_drop,hfull]
  · rw [flatten_length fun q hq => hps q (mem_of_mem_take hq),length_take,min_eq_left hle]

end

def Divided (cs : List Bytes) (start stop : ℕ) : Prop :=
  ∃as bs,cs=as++bs ∧ start<as.flatten.length ∧ as.flatten.length<stop

variable {cs : List Bytes} {out : OutFiles}

theorem divided_iff {inFile : ℕ} (h : Blocks size inFile cs) {start stop : ℕ}
    (hstop : stop≤cs.flatten.length) : Divided cs start stop ↔ ∃k,start<k*size ∧ k*size<stop := by
  constructor
  · rintro ⟨as,bs,hcs,hstart,hlt⟩
    have hbs : bs≠[] := by
      rintro rfl
      rw [append_nil] at hcs
      rw [hcs] at hstop
      omega
    rw [h.end_eq hcs hbs] at hstart hlt
    exact ⟨as.length,hstart,hlt⟩
  · rintro ⟨k,hstart,hlt⟩
    obtain ⟨as,bs,hcs,hlen⟩ := h.exists_end (hlt.trans_le hstop)
    exact ⟨as,bs,hcs,by omega,by omega⟩

/-- The pieces are a text cut into pieces of limited size that divide no shorter line. -/
structure KeepsLines (sep : UInt8) (size : ℕ) (data : Bytes) (cs : List Bytes) : Prop where
  limited : ∀c∈cs,c.length ≤ size
  joined : cs.flatten=data
  whole : ∀before line after,readLines sep [] data=before++line::after→
    line.length ≤ size→¬Divided cs before.flatten.length (before.flatten.length+line.length)

/-- No block of the size ends inside a line that is no longer than it. -/
def Aligned (sep : UInt8) (size : ℕ) (data : Bytes) : Prop :=
  ∀before line after,readLines sep [] data=before++line::after→line.length ≤ size→
    ∀k,¬(before.flatten.length<k*size ∧ k*size<before.flatten.length+line.length)

theorem keepsLines_iff {sep : UInt8} {inFile : ℕ} {data : Bytes}
    (h : Blocks size inFile cs) (hjoined : cs.flatten=data) :
    KeepsLines sep size data cs ↔ Aligned sep size data := by
  have hdivided : ∀before line after,readLines sep [] data=before++line::after→
      (Divided cs before.flatten.length (before.flatten.length+line.length) ↔
        ∃k,before.flatten.length<k*size ∧ k*size<before.flatten.length+line.length) := by
    intro before line after hlines
    refine divided_iff h ?_
    have := congrArg (fun ls => ls.flatten.length) hlines
    rw [hjoined]
    simp only [flatten_readLines,nil_append,flatten_append,flatten_cons,length_append] at this
    omega
  constructor
  · intro hk before line after hlines hle k hin
    exact hk.whole before line after hlines hle ((hdivided before line after hlines).mpr ⟨k,hin⟩)
  · intro ha
    refine ⟨fun c hc => h.length_le hc,hjoined,fun before line after hlines hle hd => ?_⟩
    obtain ⟨k,hin⟩ := (hdivided before line after hlines).mp hd
    exact ha before line after hlines hle k hin

/-- There are names for the given number of files. -/
def Names (sfx : Suffixer) (count : ℕ) : Prop :=
  ∀k<count,∃name,(sfx.before k).suffix=some (.ok name)

/-- There are names for the pieces of a text of the given length. -/
def Supplies (sfx : Suffixer) (size total : ℕ) : Prop :=
  ∀k,k*size<total→∃name,(sfx.before k).suffix=some (.ok name)

theorem nextFile_eq {name : Bytes} (h : o.sfx.suffix=some (.ok name)) : o.nextFile=pure { o with
      sfx := o.sfx.before 1
      files := o.files++[(o.pre++name++o.suffix,[])] } := by
  rw [OutFiles.nextFile,Suffixer.next,h]
  rfl

theorem before_succ (s : Suffixer) (k : ℕ) : s.before (k+1)=(s.before k).before 1 :=
  Function.iterate_succ_apply' ..

/-- The files made so far hold `cs`, and `sfx` gave them their names. -/
structure Holds (sfx : Suffixer) (o : OutFiles) (cs : List Bytes) : Prop where
  contents : o.contents=cs
  names : o.sfx=sfx.before cs.length

theorem holds_nil (h : o.files=[]) : Holds o.sfx o [] :=
  ⟨by simp [OutFiles.contents,h],rfl⟩

theorem Holds.nextFile (h : Holds sfx o cs)
    (hname : ∃name,(sfx.before cs.length).suffix=some (.ok name)) :
    ∃o',o.nextFile=pure o' ∧ Holds sfx o' (cs++[[]]) := by
  obtain ⟨name,hname⟩ := hname
  rw [←h.names] at hname
  refine ⟨_,nextFile_eq hname,by simpa [OutFiles.contents] using h.contents,?_⟩
  rw [length_append,length_singleton,before_succ sfx,←h.names]

theorem Holds.write {ps : List Bytes} {p : Bytes} (h : Holds sfx o (ps++[p])) (t : Bytes) :
    Holds sfx (o.write t) (ps++[p++t]) := by
  obtain ⟨fs,gs,hfiles,rfl,hg⟩ := map_eq_append_iff.mp h.contents
  obtain ⟨⟨name,content⟩,rfl,rfl⟩ := map_eq_singleton_iff.mp hg
  refine ⟨by simp [OutFiles.contents,OutFiles.write,hfiles,modifyLast_concat],?_⟩
  simpa [OutFiles.write] using h.names

/-- The text `done` is in the files, cut into blocks. -/
def Filled (size : ℕ) (sfx : Suffixer) (done : Bytes) (st : Filling) : Prop :=
  ∃cs,Holds sfx st.out cs ∧ Blocks size st.inFile cs ∧ cs.flatten=done

section
variable {total inFile : ℕ} {done : Bytes} {st : Filling}

/-- There is an open file, with `p` in it. -/
theorem opened_eq (hnames : Supplies sfx size total) (h : Filled size sfx done st)
    (hlt : done.length<total) : ∃out ps p,st.out.opened (st.inFile=0)=pure out ∧
      Holds sfx out (ps++[p]) ∧ (∀q∈ps,q.length=size) ∧ p.length=st.inFile ∧
      (ps++[p]).flatten=done := by
  obtain ⟨cs,hout,⟨-,ps,p,hps,hp,hcs⟩,hjoined⟩ := h
  by_cases hin : st.inFile=0
  · obtain rfl := hcs.trans (if_pos hin)
    have hused : cs.length*size<total := by rwa [←flatten_length hps,hjoined]
    obtain ⟨out,hnext,hout⟩ := hout.nextFile (hnames _ hused)
    exact ⟨out,cs,[],(if_pos hin).trans hnext,hout,hps,hin.symm,by simpa⟩
  · obtain rfl := hcs.trans (if_neg hin)
    exact ⟨st.out,ps,p,if_neg hin,hout,hps,hp,hjoined⟩

theorem filled_write {ps : List Bytes} {p t : Bytes}
    (hout : Holds sfx out (ps++[p])) (hps : ∀q∈ps,q.length=size) (hp : p.length=inFile)
    (ht : 0<t.length) (hroom : inFile+t.length ≤ size) :
    Filled size sfx ((ps++[p]).flatten++t) (Filling.write size inFile out t) := by
  refine ⟨ps++[p++t],hout.write t,?_,by simp⟩
  dsimp only [Filling.write]
  split_ifs with hfull
  · exact ⟨by omega,ps++[p++t],[],forall_mem_append.mpr ⟨hps,by simp; omega⟩,rfl,
      (if_pos rfl).symm⟩
  · exact ⟨by omega,ps,p++t,hps,by rw [length_append,hp],(if_neg (by omega)).symm⟩

theorem fillLine_eq (hnames : Supplies sfx size total) (fuel : ℕ) {line : Bytes}
    (hfuel : line.length≤fuel) (h : Filled size sfx done st) (htotal : (done++line).length≤total) :
    ∃st',fillLine size fuel line st=pure st' ∧ Filled size sfx (done++line) st' := by
  induction fuel generalizing line done st with
  | zero =>
    obtain rfl : line=[] := length_eq_zero_iff.mp (by omega)
    exact ⟨st,rfl,by simpa using h⟩
  | succ fuel ih =>
    cases line with
    | nil => exact ⟨st,rfl,by simpa using h⟩
    | cons c s =>
      have hroom : st.inFile<size := h.choose_spec.2.1.1
      have hpos : 0<(c::s).length := by simp
      rw [length_append] at htotal
      obtain ⟨out,ps,p,hopen,hout,hps,hp,rfl⟩ := opened_eq hnames h (by omega)
      have hlen : ((c::s).take (min (c::s).length (size-st.inFile))).length =
          min (c::s).length (size-st.inFile) := by
        rw [length_take]
        omega
      have hfilled := filled_write (t := (c::s).take (min (c::s).length (size-st.inFile)))
        hout hps hp (by omega) (by omega)
      have hrest : ((c::s).drop (min (c::s).length (size-st.inFile))).length≤fuel := by
        rw [length_drop]
        omega
      obtain ⟨st',hrun,hst'⟩ := ih hrest hfilled
        (by rw [append_assoc,take_append_drop,length_append]; exact htotal)
      refine ⟨st',?_,by rwa [append_assoc,take_append_drop] at hst'⟩
      rw [fillLine,hopen]
      exact hrun

theorem foldlM_fillLine (hnames : Supplies sfx size total) (lines : List Bytes)
    (h : Filled size sfx done st) (htotal : (done++lines.flatten).length≤total) :
    ∃st',lines.foldlM (fun st line => fillLine size line.length line st) st=pure st' ∧
      Filled size sfx (done++lines.flatten) st' := by
  induction lines generalizing done st with
  | nil => exact ⟨st,rfl,by simpa using h⟩
  | cons line lines ih =>
    rw [flatten_cons,←append_assoc] at htotal
    obtain ⟨st₁,hline,h₁⟩ := fillLine_eq hnames line.length le_rfl h
      (by rw [length_append] at htotal; omega)
    obtain ⟨st',hrest,h'⟩ := ih h₁ htotal
    refine ⟨st',?_,by rwa [flatten_cons,←append_assoc]⟩
    rw [foldlM_cons,hline,pure_bind,hrest]

/-- The pieces are the blocks of the size. -/
theorem splitLineBytes_blocks (hs : 0<size) (data : Bytes) (hout : out.files=[])
    (hnames : Supplies out.sfx size data.length) (sepStr : Bytes) :
    ∃out' inFile,splitLineBytes data out size sepStr=pure out' ∧
      Blocks size inFile out'.contents ∧ out'.contents.flatten=data := by
  have hjoined := flatten_readLines (separator sepStr) [] data
  have hstart : Filled size out.sfx [] { out } :=
    ⟨[],holds_nil hout,⟨hs,[],[],by simp,rfl,rfl⟩,rfl⟩
  obtain ⟨st,hrun,cs,hcs,hblocks,hflat⟩ :=
    foldlM_fillLine hnames (readLines (separator sepStr) [] data) hstart (by rw [hjoined]; simp)
  refine ⟨st.out,st.inFile,?_,hcs.contents ▸ hblocks,by rw [hcs.contents,hflat,hjoined]; simp⟩
  rw [splitLineBytes,hrun,pure_bind]

end

/-- The pieces keep short lines whole exactly if no block ends inside one of them. -/
theorem splitLineBytes_keepsLines_iff {size : ℕ} (hs : 0<size) (data : Bytes)
    (hout : out.files=[]) (hnames : Supplies out.sfx size data.length) (sep : UInt8) :
    (∃out',splitLineBytes data out size [sep]=pure out' ∧
      KeepsLines sep size data out'.contents) ↔ Aligned sep size data := by
  obtain ⟨out',inFile,hrun,hblocks,hjoined⟩ := splitLineBytes_blocks hs data hout hnames [sep]
  constructor
  · rintro ⟨out'',hrun',hkeeps⟩
    obtain rfl : out'=out'' := Except.ok.inj (Option.some.inj (hrun.symm.trans hrun'))
    exact (keepsLines_iff hblocks hjoined).mp hkeeps
  · intro ha
    exact ⟨out',hrun,(keepsLines_iff hblocks hjoined).mpr ha⟩

/-- The files xaa to xzz. -/
def lettered : OutFiles where
  pre := ascii "x"
  sfx := Style.alphabetic.suffixer 2
  suffix := []

theorem names_lettered : Names lettered.sfx 4 := by
  intro k hk
  interval_cases k <;> exact ⟨_,rfl⟩

theorem splitLineBytes_keepsLines_two :
    ∃out',splitLineBytes (ascii "ab\ncd\n") lettered 3 [newline]=pure out' ∧
      out'.contents=[ascii "ab\n",ascii "cd\n"] ∧
      KeepsLines newline 3 (ascii "ab\ncd\n") out'.contents := by
  have hall : readLines newline [] (ascii "ab\ncd\n")=[ascii "ab\n",ascii "cd\n",[]] := by decide
  have hnames : Supplies lettered.sfx 3 6 := fun k hk => names_lettered k (by omega)
  have haligned : Aligned newline 3 (ascii "ab\ncd\n") := by
    intro before line after hlines _ k
    rw [hall] at hlines
    match before with
    | [] =>
      obtain ⟨rfl,-⟩ := cons.inj hlines
      change ¬(0<k*3 ∧ k*3<0+3)
      omega
    | [_] =>
      obtain ⟨rfl,rfl,-⟩ := hlines
      change ¬(3<k*3 ∧ k*3<3+3)
      omega
    | [_,_] =>
      obtain ⟨-,-,rfl,-⟩ := hlines
      simp only [length_nil]
      omega
    | _::_::_::_ => simp at hlines
  obtain ⟨out',hrun,hkeeps⟩ := (splitLineBytes_keepsLines_iff (by decide) _
    (rfl : lettered.files=[]) hnames newline).mpr haligned
  have hcs : (splitLineBytes (ascii "ab\ncd\n") lettered 3 [newline]).run.bind
      (·.toOption.map OutFiles.contents)=some [ascii "ab\n",ascii "cd\n"] := by
    decide +kernel
  rw [hrun] at hcs
  exact ⟨out',hrun,Option.some.inj hcs,hkeeps⟩

/-- A piece of four bytes takes the first byte of the second line with it. -/
theorem not_splitLineBytes_keepsLines : ¬∃out',splitLineBytes (ascii "ab\ncd\n")
      { pre := ascii "x",sfx := Style.alphabetic.suffixer 0,suffix := [] } 4 [newline]=pure out' ∧
      KeepsLines newline 4 (ascii "ab\ncd\n") out'.contents := by
  rintro ⟨out',hrun,hkeeps⟩
  have hvalue : (splitLineBytes (ascii "ab\ncd\n")
      { pre := ascii "x",sfx := Style.alphabetic.suffixer 0,suffix := [] } 4 [newline]).run =
      some (.ok { pre := ascii "x",sfx := { Style.alphabetic.suffixer 0 with
                  idx := 2 },suffix := []
                  files := [(ascii "xaa",ascii "ab\nc"),(ascii "xab",ascii "d\n")] }) := by
    decide +kernel
  obtain rfl := Except.ok.inj (Option.some.inj (hvalue.symm.trans hrun))
  refine hkeeps.whole [ascii "ab\n"] (ascii "cd\n") [[]] (by decide) (by decide) ?_
  exact ⟨[ascii "ab\nc"],[ascii "d\n"],rfl,by decide,by decide⟩

end Coreutils.SplitPieces
