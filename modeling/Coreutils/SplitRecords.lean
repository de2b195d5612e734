import Coreutils.SplitPieces
import Mathlib.Algebra.Order.BigOperators.Group.List
import Mathlib.Data.List.GetD
import Mathlib.Data.List.Induction
import Mathlib.Data.List.ModifyLast

/-!
# Records and chunks of split

`splitChunks` on lines and `splitRecords`, which look for the separator from one record to the
next.
-/

namespace Coreutils.SplitRecords
open List GoText SplitSuffixes SplitPieces

/-- The length of the first line of a text, with its separator. -/
def lineLength (sep rest : Bytes) : ℕ :=
  match index sep rest with
  | some i => i+sep.length
  | none => rest.length

/-- The inner loop of `splitChunks`; the first argument is how many chunks are left. -/
def passChunks (size chunk pos : ℕ) : ℕ→ℕ→OutFiles→ExceptT Bytes Option (ℕ×OutFiles)
  | 0,cur,out => pure (cur,out)
  | left+1,cur,out =>
    if pos<size ∧ (cur+1)*chunk≤pos then do
      passChunks size chunk pos left (cur+1) (← out.nextFile)
    else pure (cur,out)

/-- The outer loop, with the text from `pos` on; the first number is fuel. -/
def chunksFrom (sep : Bytes) (size n chunk : ℕ) : ℕ→ℕ→ℕ→OutFiles→Bytes→
    ExceptT Bytes Option (ℕ×OutFiles)
  | 0,_,cur,out,rest => if rest=[] then pure (cur,out) else none
  | fuel+1,pos,cur,out,rest =>
    if rest=[] then pure (cur,out)
    else do
      let len := lineLength sep rest
      let st ← passChunks size chunk (pos+len) (n-1-cur) cur (out.write (rest.take len))
      chunksFrom sep size n chunk fuel (pos+len) st.1 st.2 (rest.drop len)

def chunkSize (size n : ℕ) : ℕ := if size/n=0 then 1 else size/n

/-- The loops that make empty files. -/
def nextFiles : ℕ→OutFiles→ExceptT Bytes Option OutFiles
  | 0,out => pure out
  | k+1,out => do nextFiles k (← out.nextFile)

/-- `splitChunks` with `byLines`. -/
def splitChunks (data : Bytes) (out : OutFiles) (n : ℕ) (elideEmpty : Bool) (separator : Bytes) :
    ExceptT Bytes Option OutFiles :=
  let sep := if separator=[] then [newline] else separator
  if data=[] then if elideEmpty then pure out else nextFiles n out
  else do
    let out ← out.nextFile
    let st ← chunksFrom sep data.length n (chunkSize data.length n) data.length 0 0 out data
    if elideEmpty then pure st.2 else nextFiles (n-1-st.1) st.2

/-- The lines of a text with their offsets; the first number is fuel. -/
def linesAt (sep : Bytes) : ℕ→ℕ→Bytes→List (ℕ×Bytes)
  | 0,_,_ => []
  | fuel+1,pos,rest =>
    let len := lineLength sep rest
    if rest=[] then [] else (pos,rest.take len)::linesAt sep fuel (pos+len) (rest.drop len)

def chunkOf (n chunk pos : ℕ) : ℕ := min (n-1) (pos/chunk)

def chunkText (n chunk : ℕ) (lines : List (ℕ×Bytes)) (i : ℕ) : Bytes :=
  (lines.filter (chunkOf n chunk ·.1=i)).flatMap Prod.snd

variable {sep : Bytes} {size n chunk pos left cur perFile : ℕ} {sfx : Suffixer} {out : OutFiles}
  {cs rs : List Bytes} {st : ℕ×OutFiles} {rest : Bytes}

theorem nextFiles_eq (hnames : Names sfx n) (k : ℕ) (hout : Holds sfx out cs)
    (hle : cs.length+k≤n) : ∃out',nextFiles k out=pure out' ∧
      Holds sfx out' (cs++replicate k []) := by
  induction k generalizing out cs with
  | zero => exact ⟨out,rfl,by simpa using hout⟩
  | succ k ih =>
    obtain ⟨out₁,hnext,hout₁⟩ := hout.nextFile (hnames _ (by omega))
    obtain ⟨out',hrun,hout'⟩ := ih hout₁ (by simp; omega)
    refine ⟨out',?_,by simpa [replicate_succ] using hout'⟩
    rw [nextFiles,hnext,pure_bind,hrun]

theorem passChunks_spec (hc : 0<chunk) (h : cur+left=n-1) (hcur : cur≤pos/chunk)
    (hnames : Names sfx n) (hout : Holds sfx out cs) (hlen : cs.length=cur+1) :
    ∃k out',passChunks size chunk pos left cur out=pure (cur+k,out') ∧
      Holds sfx out' (cs++replicate k []) ∧ k≤left ∧
      (pos<size→cur+k=chunkOf n chunk pos) ∧ (size≤pos→k=0) := by
  induction left generalizing cur out cs with
  | zero =>
    exact ⟨0,out,rfl,by simpa using hout,le_rfl,fun _ => by unfold chunkOf; omega,fun _ => rfl⟩
  | succ left ih =>
    have hdiv := @Nat.le_div_iff_mul_le chunk (cur+1) pos hc
    rw [passChunks]
    split_ifs with hp
    · obtain ⟨out₁,hnext,hout₁⟩ := hout.nextFile (hnames _ (by omega))
      obtain ⟨k,out',hrun,hout',hk,hin,-⟩ :=
        ih (by omega) (hdiv.mpr hp.2) hout₁ (by simp [hlen])
      refine ⟨k+1,out',?_,by simpa [replicate_succ] using hout',by omega,
        fun h => by have := hin h; omega,by omega⟩
      rw [hnext,pure_bind,hrun,add_right_comm,add_assoc]
    · exact ⟨0,out,rfl,by simpa using hout,by omega,fun _ => by unfold chunkOf; omega,fun _ => rfl⟩

theorem lineLength_pos (hs : sep≠[]) (hr : rest≠[]) :
    0<lineLength sep rest ∧ lineLength sep rest≤rest.length := by
  have := length_pos_iff.mpr hs
  have := length_pos_iff.mpr hr
  unfold lineLength
  split
  · rename_i i hi
    have := index_le hi
    omega
  · omega

/-- The files after a write to the last one. -/
def written (cs : List Bytes) (p : Bytes) : List Bytes := cs.modifyLast (·++p)

theorem length_written (h : cs≠[]) (p : Bytes) : (written cs p).length=cs.length := by
  obtain ⟨fs,f,rfl⟩ := (eq_nil_or_concat' cs).resolve_left h
  simp [written,modifyLast_concat]

theorem holds_written (hout : Holds sfx out cs) (h : cs≠[]) (p : Bytes) :
    Holds sfx (out.write p) (written cs p) := by
  obtain ⟨fs,f,rfl⟩ := (eq_nil_or_concat' cs).resolve_left h
  rw [written,modifyLast_concat]
  exact hout.write p

theorem getD_written (h : cs.length=cur+1) (p : Bytes) (i : ℕ) :
    (written cs p).getD i []=cs.getD i []++if cur=i then p else [] := by
  obtain ⟨fs,f,rfl⟩ := (eq_nil_or_concat' cs).resolve_left (by rintro rfl; simp at h)
  obtain rfl : fs.length=cur := by simpa using h
  rw [written,modifyLast_concat]
  rcases lt_trichotomy i fs.length with hi | rfl | hi
  · simp [getElem?_append_left,hi,hi.ne']
  · simp
  · simp [getElem?_append_right hi.le,hi.ne,Nat.sub_ne_zero_of_lt hi]

theorem getD_pad (k i : ℕ) : (cs++replicate k []).getD i []=cs.getD i [] := by
  rcases lt_or_ge i cs.length with h | h
  · exact getD_append _ _ _ _ h
  · rw [getD_append_right _ _ _ _ h,getD_eq_default _ _ h]
    simp [getElem?_replicate]
    split <;> rfl

/-- Every line is written to the chunk that its offset gives. -/
theorem chunksFrom_spec (hs : sep≠[]) (hc : 0<chunk) (hnames : Names sfx n) (fuel : ℕ)
    (hfuel : rest.length≤fuel) (hsize : pos+rest.length=size) (hcur : cur≤n-1)
    (hpos : rest≠[]→cur=chunkOf n chunk pos) (hout : Holds sfx out cs) (hcs : cs.length=cur+1)
    (hlast : rest=[]→cs.getD cur []≠[]) :
    ∃cur' out' cs',chunksFrom sep size n chunk fuel pos cur out rest=pure (cur',out') ∧
      Holds sfx out' cs' ∧ cs'.length=cur'+1 ∧ cur'≤n-1 ∧ cs'.getD cur' []≠[] ∧
      ∀i,cs'.getD i []=cs.getD i []++chunkText n chunk (linesAt sep fuel pos rest) i := by
  induction fuel generalizing pos cur out cs rest with
  | zero =>
    obtain rfl : rest=[] := by simpa using hfuel
    exact ⟨cur,out,cs,rfl,hout,hcs,hcur,hlast rfl,by simp [linesAt,chunkText]⟩
  | succ fuel ih =>
    rw [chunksFrom,linesAt]
    by_cases hr : rest=[]
    · exact ⟨cur,out,cs,if_pos hr,hout,hcs,hcur,hlast hr,by simp [hr,chunkText]⟩
    have hlen := lineLength_pos hs hr
    generalize lineLength sep rest=len at *
    have hhere := hpos hr
    have hchunk : cur≤(pos+len)/chunk := by
      have := @Nat.div_le_div_right pos (pos+len) chunk (by omega)
      rw [hhere,chunkOf]
      omega
    have hne : cs≠[] := by
      rintro rfl
      simp at hcs
    obtain ⟨k,out₁,hpass,hout₁,hk,hin,hend⟩ := @passChunks_spec size n chunk (pos+len) (n-1-cur)
      cur sfx (out.write (rest.take len)) (written cs (rest.take len)) hc (by omega) hchunk hnames
      (holds_written hout hne _) (by rw [length_written hne,hcs])
    have hw := getD_written hcs (rest.take len)
    have hmore : rest.drop len=[] ↔ ¬pos+len<size := by
      rw [drop_eq_nil_iff]
      omega
    have hfull : rest.drop len=[]→
        (written cs (rest.take len)++replicate k []).getD (cur+k) []≠[] := by
      intro hd
      obtain rfl := hend (not_lt.mp (hmore.mp hd))
      rw [getD_pad,add_zero,hw,take_of_length_le (drop_eq_nil_iff.mp hd)]
      simp [hr]
    obtain ⟨cur',out',cs',hrun,hout',hlen',hle,hne,htext⟩ := @ih (pos+len) (cur+k) _ _
      (rest.drop len) (by simp; omega) (by simp; omega) (by omega)
      (fun hd => hin (by_contra fun h => hd (hmore.mpr h))) hout₁
      (by simp [length_written hne,hcs,add_right_comm]) hfull
    simp only [if_neg hr,hpass,pure_bind]
    refine ⟨cur',out',cs',hrun,hout',hlen',hle,hne,fun i => ?_⟩
    rw [htext,getD_pad,hw]
    simp only [chunkText,filter_cons,←hhere,decide_eq_true_eq]
    split_ifs <;> simp

/-- What the chunks of `split -n l/N` should hold. -/
def chunks (data : Bytes) (n : ℕ) (separator : Bytes) : List Bytes :=
  let sep := if separator=[] then [newline] else separator
  (range n).map (chunkText n (chunkSize data.length n) (linesAt sep data.length 0 data))

theorem splitChunks_spec (data : Bytes) (hn : 0<n) (separator : Bytes) (hout : out.files=[])
    (hnames : Names out.sfx n) :
    ∃cs k,chunks data n separator=cs++replicate k [] ∧ (∀f∈cs.getLast?,f≠[]) ∧
      (∃o,splitChunks data out n false separator=pure o ∧ o.contents=cs++replicate k []) ∧
      ∃o,splitChunks data out n true separator=pure o ∧ o.contents=cs := by
  simp only [splitChunks,chunks]
  generalize hsep : (if separator=[] then [newline] else separator)=sep
  have hs : sep≠[] := by
    rw [←hsep]
    split_ifs with h
    · simp
    · exact h
  have hstart := holds_nil hout
  by_cases hd : data=[]
  · obtain ⟨o,hrun,ho⟩ := nextFiles_eq hnames n hstart (by simp)
    exact ⟨[],n,by simp [hd,linesAt,chunkText,eq_replicate_iff],by simp,
      ⟨o,by simpa [hd] using hrun,ho.contents⟩,out,by simp [hd],hstart.contents⟩
  have hc : 0<chunkSize data.length n := by
    unfold chunkSize
    split_ifs with h
    · exact one_pos
    · exact pos_of_ne_zero h
  obtain ⟨out₁,hfirst,hout₁⟩ := hstart.nextFile (hnames 0 hn)
  obtain ⟨cur,out',cs,hrun,hout',hlen,hle,hne,htext⟩ := chunksFrom_spec hs hc hnames data.length
    le_rfl (zero_add _) (Nat.zero_le (n-1)) (by simp [chunkOf]) hout₁ rfl (absurd · hd)
  obtain ⟨o,hpad,ho⟩ := nextFiles_eq hnames (n-1-cur) hout' (by omega)
  simp only [if_neg hd,hfirst,hrun,pure_bind]
  refine ⟨cs,n-1-cur,ext_getElem (by simp; omega) fun i hi hi' => ?_,fun f hf => ?_,
    ⟨o,hpad,ho.contents⟩,out',rfl,hout'.contents⟩
  · rw [←getD_eq_getElem _ [] hi',getD_pad,htext]
    cases i <;> simp
  · rw [getLast?_eq_getElem?,hlen,Option.mem_def,Nat.add_sub_cancel] at hf
    simpa [hf] using hne

/-- `split -n l/N` puts every line where it should be. With `-e` the empty chunks are left out
exactly if none of them comes before another chunk. -/
theorem splitChunks_iff (data : Bytes) (hn : 0<n) (separator : Bytes) (hout : out.files=[])
    (hnames : Names out.sfx n) :
    (∃o,splitChunks data out n false separator=pure o ∧ o.contents=chunks data n separator) ∧
    ((∃o,splitChunks data out n true separator=pure o ∧
      o.contents=(chunks data n separator).filter (·≠[])) ↔
      (chunks data n separator).Pairwise fun f g => g≠[]→f≠[]) := by
  obtain ⟨cs,k,hchunks,hlast,⟨o,hrun,ho⟩,o',hrun',ho'⟩ :=
    splitChunks_spec data hn separator hout hnames
  rw [hchunks]
  refine ⟨⟨o,hrun,ho⟩,?_⟩
  have hfilter : (cs++replicate k []).filter (·≠[])=cs.filter (·≠[]) := by simp
  rw [hfilter,pairwise_append]
  constructor
  · rintro ⟨o,h,hself⟩
    obtain rfl : o'=o := Except.ok.inj (Option.some.inj (hrun'.symm.trans h))
    have hne : ∀f∈cs,f≠[] := by
      rw [ho',eq_comm] at hself
      simpa using hself
    exact ⟨pairwise_of_forall_mem_list fun f hf _ _ _ => hne f hf,by simp,by simp⟩
  · rintro ⟨hp,-,-⟩
    have hne : ∀f∈cs,f≠[] := by
      rcases eq_nil_or_concat' cs with rfl | ⟨fs,f,rfl⟩
      · simp
      · have hf : f≠[] := hlast f (by simp)
        rw [pairwise_append] at hp
        exact forall_mem_append.mpr
          ⟨fun g hg => hp.2.2 g hg f (by simp) hf,forall_mem_singleton.mpr hf⟩
    exact ⟨o',hrun',ho'.trans (filter_eq_self.mpr (by simpa using hne)).symm⟩

/-- Each line has a chunk of its own. -/
theorem splitChunks_three_lines : ∃o,splitChunks (ascii "a
b
c
") lettered 3 true [newline]=pure o ∧
      o.contents=(chunks (ascii "a
b
c
") 3 [newline]).filter (·≠[]) :=
  (splitChunks_iff (ascii "a
b
c
") (by decide) [newline] (rfl : lettered.files=[])
    fun k hk => names_lettered k (hk.trans (by decide))).2.mpr (by decide)

/-- The first line reaches into the last chunk; the file of the second is made all the same. -/
theorem not_splitChunks_elided : (splitChunks (ascii "aaaa\nb") lettered 3 true [newline]).run.bind
      (·.toOption.map OutFiles.contents)=some [ascii "aaaa\n",[],ascii "b"] ∧
    (chunks (ascii "aaaa\nb") 3 [newline]).filter (·≠[])=[ascii "aaaa\n",ascii "b"] := by
  decide +kernel

/-- A turn of the loops of `splitRecords` and `splitLines`, with the records in the open file. -/
def put (perFile : ℕ) (st : ℕ×OutFiles) (record : Bytes) : ExceptT Bytes Option (ℕ×OutFiles) := do
  let out ← st.2.opened (st.1=0)
  return (if st.1+1=perFile then 0 else st.1+1,out.write record)

def splitLines (data : Bytes) (out : OutFiles) (perFile : ℕ) : ExceptT Bytes Option OutFiles := do
  let st ← ((readLines newline [] data).filter (·≠[])).foldlM (put perFile) (0,out)
  return st.2

/-- The loop of `splitRecords`, with the text from `lastEnd` on; the first number is fuel. -/
def recordsFrom (perFile : ℕ) (sep : Bytes) : ℕ→ℕ→ℕ×OutFiles→Bytes→ExceptT Bytes Option OutFiles
  | 0,_,st,rest => if rest=[] then pure st.2 else none
  | fuel+1,lastEnd,st,rest =>
    if rest=[] then pure st.2
    else
      match index sep rest with
      | none => do
        let out ← st.2.opened (lastEnd=0 ∧ st.1=0)
        return out.write rest
      | some j => do
        let stop := j+sep.length
        let st ← put perFile st (rest.take stop)
        recordsFrom perFile sep fuel (lastEnd+stop) st (rest.drop stop)

def splitRecords (data : Bytes) (out : OutFiles) (perFile : ℕ) (sep : Bytes) :
    ExceptT Bytes Option OutFiles :=
  recordsFrom perFile sep data.length 0 (0,out) data

/-- The records of a text that end in a separator, and what is left; the number is fuel. -/
def cut (sep : Bytes) : ℕ→Bytes→List Bytes×Bytes
  | 0,rest => ([],rest)
  | fuel+1,rest =>
    match index sep rest with
    | none => ([],rest)
    | some j =>
      let r := cut sep fuel (rest.drop (j+sep.length))
      (rest.take (j+sep.length)::r.1,r.2)

/-- Files with `N` records each, but for the last one. -/
def Pieces (perFile : ℕ) (records files : List Bytes) : Prop :=
  ∃groups : List (List Bytes),groups.flatten=records ∧ files=groups.map flatten ∧
    (∀g∈groups,0<g.length ∧ g.length≤perFile) ∧ ∀g∈groups.dropLast,g.length=perFile

/-- Whole groups, and the records of the open file. -/
def Grouping (perFile : ℕ) (sfx : Suffixer) (records : List Bytes) (st : ℕ×OutFiles) : Prop :=
  st.1<perFile ∧ ∃(full : List (List Bytes)) (g : List Bytes),(∀f∈full,f.length=perFile) ∧
    g.length=st.1 ∧ records=full.flatten++g ∧
    Holds sfx st.2 (full.map flatten++if st.1=0 then [] else [g.flatten])

/-- There is an open file that holds the records of the last group. -/
theorem Grouping.opened (h : Grouping perFile sfx rs st) (hnames : Names sfx (rs.length+1)) :
    ∃out,st.2.opened (st.1=0)=pure out ∧ ∃(full : List (List Bytes)) (g : List Bytes),
      (∀f∈full,f.length=perFile) ∧ g.length=st.1 ∧ rs=full.flatten++g ∧
      Holds sfx out (full.map flatten++[g.flatten]) := by
  obtain ⟨hroom,full,g,hfull,hg,rfl,hout⟩ := h
  unfold OutFiles.opened
  split_ifs at hout ⊢ with h0
  · obtain rfl : g=[] := by simpa [h0] using hg
    have hlt : (full.map flatten).length<(full.flatten++[]).length+1 := by
      rw [append_nil,length_map,flatten_length hfull]
      exact Nat.lt_succ_of_le (Nat.le_mul_of_pos_right _ (by omega))
    rw [append_nil] at hout
    obtain ⟨out,hnext,hout⟩ := hout.nextFile (hnames _ hlt)
    exact ⟨out,hnext,full,[],hfull,hg,rfl,hout⟩
  · exact ⟨st.2,rfl,full,g,hfull,hg,rfl,hout⟩

theorem Grouping.put (h : Grouping perFile sfx rs st) (hnames : Names sfx (rs.length+1))
    (r : Bytes) : ∃st',put perFile st r=pure st' ∧ Grouping perFile sfx (rs++[r]) st' := by
  obtain ⟨out,hopen,full,g,hfull,hg,rfl,hout⟩ := h.opened hnames
  have hw := hout.write r
  refine ⟨_,by rw [SplitRecords.put,hopen,pure_bind],?_⟩
  have hroom := h.1
  split_ifs with hn
  · refine ⟨by omega,full++[g++[r]],[],?_,rfl,by simp,by simpa using hw⟩
    simpa [or_imp,forall_and,hg,hn] using hfull
  · exact ⟨by omega,full,g++[r],hfull,by simp [hg],by simp,by simpa using hw⟩

theorem grouping_foldlM (hn : 0<perFile) (hout : Holds sfx out []) (rs : List Bytes)
    (hnames : Names sfx rs.length) :
    ∃st,rs.foldlM (SplitRecords.put perFile) (0,out)=pure st ∧ Grouping perFile sfx rs st := by
  induction rs using reverseRecOn with
  | nil => exact ⟨(0,out),rfl,hn,[],[],by simp,rfl,rfl,hout⟩
  | append_singleton rs r ih =>
    rw [length_append,length_singleton] at hnames
    obtain ⟨st,hrun,h⟩ := ih fun k hk => hnames k (by omega)
    obtain ⟨st',hput,h'⟩ := h.put hnames r
    exact ⟨st',by rw [foldlM_append,hrun,pure_bind,foldlM_cons,hput]; rfl,h'⟩

theorem Grouping.count_eq_zero (h : Grouping perFile sfx rs st) : st.1=0 ↔ perFile∣rs.length := by
  obtain ⟨hroom,full,g,hfull,hg,rfl,-⟩ := h
  rw [length_append,flatten_length hfull,hg,Nat.dvd_add_right (Nat.dvd_mul_left ..)]
  exact ⟨fun h => h ▸ dvd_zero _,fun h => Nat.eq_zero_of_dvd_of_lt h hroom⟩

theorem Pieces.length_le {files : List Bytes} (h : Pieces perFile rs files) :
    rs.length≤files.length*perFile := by
  obtain ⟨groups,rfl,rfl,hg,-⟩ := h
  simpa using sum_le_card_nsmul (groups.map length) perFile (by simpa using fun g h => (hg g h).2)

theorem Grouping.pieces (h : Grouping perFile sfx rs st) : Pieces perFile rs st.2.contents := by
  obtain ⟨hroom,full,g,hfull,hg,rfl,hout⟩ := h
  by_cases h0 : st.1=0
  · obtain rfl : g=[] := by simpa [h0] using hg
    refine ⟨full,by simp,by simpa [h0] using hout.contents,fun f hf => ?_,
      fun f hf => hfull f (dropLast_subset _ hf)⟩
    rw [hfull f hf]
    omega
  · exact ⟨full++[g],by simp,by simpa [h0] using hout.contents,forall_mem_append.mpr
      ⟨fun f hf => by rw [hfull f hf]; omega,forall_mem_singleton.mpr (by omega)⟩,
      by simpa using hfull⟩

/-- What `splitRecords` does with the text after the last separator. -/
def putRest (first : Prop) [Decidable first] (st : ℕ×OutFiles) (t : Bytes) :
    ExceptT Bytes Option OutFiles := do
  let out ← st.2.opened (first ∧ st.1=0)
  return out.write t

/-- It is one more record, except after a full file. -/
theorem Grouping.last (h : Grouping perFile sfx rs st) (hnames : Names sfx (rs.length+1))
    (t : Bytes) : ∃o,putRest (rs=[]) st t=pure o ∧
      ((rs=[] ∨ ¬perFile∣rs.length) ∧ (∃c,SplitRecords.put perFile st t=pure (c,o)) ∨
      ¬(rs=[] ∨ ¬perFile∣rs.length) ∧ ¬Pieces perFile (rs++[t]) o.contents) := by
  rw [←h.count_eq_zero]
  by_cases hc : rs=[] ∨ ¬st.1=0
  · obtain ⟨out,hopen,-⟩ := h.opened hnames
    have hfirst : (rs=[] ∧ st.1=0) ↔ st.1=0 := by tauto
    have hsame : st.2.opened (rs=[] ∧ st.1=0)=pure out := by
      simpa only [OutFiles.opened,hfirst] using hopen
    exact ⟨out.write t,by rw [putRest,hsame,pure_bind],.inl ⟨hc,_,by
      rw [SplitRecords.put,hopen,pure_bind]⟩⟩
  · rw [not_or,not_not] at hc
    refine ⟨st.2.write t,?_,.inr ⟨by tauto,fun hp => ?_⟩⟩
    · rw [putRest,OutFiles.opened,if_neg fun h => hc.1 h.1,pure_bind]
    obtain ⟨-,full,g,hfull,hg,rfl,hout⟩ := h
    obtain rfl : g=[] := by simpa [hc.2] using hg
    rw [if_pos hc.2,append_nil] at hout
    have hne : full.map flatten≠[] := by
      rintro hn
      simp [map_eq_nil_iff.mp hn] at hc
    have hle := hp.length_le
    rw [(holds_written hout hne t).contents,length_written hne] at hle
    simp [flatten_length hfull] at hle

theorem recordsFrom_eq (hs : sep≠[]) (fuel : ℕ) {lastEnd : ℕ}
    (hfuel : rest.length≤fuel) : recordsFrom perFile sep fuel lastEnd st rest=(do
      let st' ← (cut sep fuel rest).1.foldlM (SplitRecords.put perFile) st
      if (cut sep fuel rest).2=[] then return st'.2
      else putRest (lastEnd+(cut sep fuel rest).1.flatten.length=0) st' (cut sep fuel rest).2) := by
  have hnil : index sep []=none := by simp [index,hs]
  induction fuel generalizing lastEnd st rest with
  | zero =>
    obtain rfl : rest=[] := by simpa using hfuel
    rfl
  | succ fuel ih =>
    rw [recordsFrom,cut]
    by_cases hr : rest=[]
    · simp [hr,hnil]
    cases hj : index sep rest with
    | none => simp [hr,putRest]
    | some j =>
      have := length_pos_iff.mpr hs
      have := index_le hj
      have hlen : (rest.take (j+sep.length)).length=j+sep.length := by simp; omega
      simp only [if_neg hr,foldlM_cons,bind_assoc,flatten_cons,length_append,hlen,←add_assoc]
      exact bind_congr fun st' => ih (by simp; omega)

/-- An empty separator is found again and again at the same place. -/
theorem recordsFrom_empty (fuel lastEnd : ℕ) (hr : rest≠[]) (o : OutFiles) :
    recordsFrom perFile [] fuel lastEnd st rest≠pure o := by
  induction fuel generalizing lastEnd st with
  | zero =>
    rw [recordsFrom,if_neg hr]
    rintro ⟨⟩
  | succ fuel ih =>
    have hj : index [] rest=some 0 := by cases rest <;> simp [index]
    simp only [recordsFrom,if_neg hr,hj]
    cases put perFile st (rest.take (0+[].length)) with
    | none => rintro ⟨⟩
    | some r =>
      cases r with
      | error e => rintro ⟨⟩
      | ok st' => exact ih _

theorem cut_ne_nil (hs : sep≠[]) (fuel : ℕ) (rest : Bytes) : ∀r∈(cut sep fuel rest).1,r≠[] := by
  induction fuel generalizing rest with
  | zero => simp [cut]
  | succ fuel ih =>
    rw [cut]
    cases hj : index sep rest with
    | none => simp
    | some j =>
      have := length_pos_iff.mpr hs
      have := index_le hj
      have hne : rest.take (j+sep.length)≠[] := ne_nil_of_length_pos (by simp; omega)
      simpa [hne] using ih _

theorem readLines_cut (fuel : ℕ) (hfuel : rest.length≤fuel) :
    readLines newline [] rest=(cut [newline] fuel rest).1++[(cut [newline] fuel rest).2] := by
  have hread : ∀rest line,readLines newline line rest=match index [newline] rest with
      | none => [line++rest]
      | some j => (line++rest.take (j+1))::readLines newline [] (rest.drop (j+1)) := by
    intro rest
    induction rest with
    | nil => simp [readLines,index]
    | cons c rest ih =>
      intro line
      rw [readLines,index]
      by_cases hc : c=newline
      · simp [hc]
      · rw [if_neg hc,ih,if_neg (by simpa using Ne.symm hc)]
        cases index [newline] rest <;> simp
  induction fuel generalizing rest with
  | zero =>
    obtain rfl : rest=[] := by simpa using hfuel
    rfl
  | succ fuel ih =>
    rw [cut,hread]
    cases hj : index [newline] rest with
    | none => rfl
    | some j =>
      simp [@ih (rest.drop (j+1)) (by simp; omega)]

/-- All records of a text. -/
def records (sep data : Bytes) : List Bytes :=
  let r := cut sep data.length data
  if r.2=[] then r.1 else r.1++[r.2]

/-- `splitRecords` ends with the right files, those of `splitLines` for a newline, exactly if the
separator is not empty and no unterminated record comes after a full file. -/
theorem splitRecords_iff (data sep : Bytes) (hn : 0<perFile) (hout : out.files=[])
    (hnames : Names out.sfx (records sep data).length) :
    (∃o,splitRecords data out perFile sep=pure o ∧ Pieces perFile (records sep data) o.contents ∧
      (sep=[newline]→splitLines data out perFile=pure o)) ↔
    data=[] ∨ sep≠[] ∧ ((cut sep data.length data).2=[] ∨ (cut sep data.length data).1=[] ∨
      ¬perFile∣(cut sep data.length data).1.length) := by
  have hstart := holds_nil hout
  by_cases hd : data=[]
  · subst hd
    exact iff_of_true ⟨out,rfl,⟨[],rfl,by simp [hstart.contents],by simp,by simp⟩,fun _ => rfl⟩
      (.inl rfl)
  by_cases hs : sep=[]
  · simp [hs,hd,splitRecords,recordsFrom_empty]
  have hlines : sep=[newline] → readLines newline [] data =
      (cut sep data.length data).1++[(cut sep data.length data).2] := by
    rintro rfl
    exact readLines_cut data.length le_rfl
  have hne := cut_ne_nil hs data.length data
  rw [splitRecords,recordsFrom_eq hs data.length le_rfl]
  rw [records] at hnames ⊢
  generalize cut sep data.length data=r at *
  obtain ⟨rs,t⟩ := r
  have hfilter : rs.filter (·≠[])=rs := filter_eq_self.mpr (by simpa using hne)
  have hflat : rs.flatten.length=0 ↔ rs=[] := by
    rw [length_eq_zero_iff,flatten_eq_nil_iff]
    exact ⟨fun h => eq_nil_iff_forall_not_mem.mpr fun r hr => hne r hr (h r hr),by rintro rfl; simp⟩
  have hle : rs.length≤(if t=[] then rs else rs++[t]).length := by split_ifs <;> simp
  obtain ⟨st,hrun,hg⟩ := grouping_foldlM hn hstart rs fun k hk => hnames k (hk.trans_le hle)
  simp only [hrun,pure_bind]
  by_cases ht : t=[]
  · refine iff_of_true ⟨st.2,if_pos ht,by simpa [ht] using hg.pieces,fun h => ?_⟩
      (.inr ⟨hs,.inl ht⟩)
    rw [splitLines,hlines h,ht,filter_append,hfilter]
    simp [hrun]
  simp only [zero_add,hflat,hd,hs,ht,not_false_eq_true,ne_eq,false_or,true_and,if_false] at hnames ⊢
  rw [length_append,length_singleton] at hnames
  obtain ⟨o,hlast,⟨hc,c,hput⟩ | ⟨hc,hno⟩⟩ := hg.last hnames t
  · obtain ⟨st',hput',hg'⟩ := hg.put hnames t
    obtain rfl : st'=(c,o) := Except.ok.inj (Option.some.inj (hput'.symm.trans hput))
    refine iff_of_true ⟨o,hlast,hg'.pieces,fun h => ?_⟩ hc
    rw [splitLines,hlines h,filter_append,hfilter]
    simp [ht,hrun,hput]
  · refine iff_of_false ?_ hc
    rintro ⟨o',hrun',hp,-⟩
    obtain rfl : o=o' := Except.ok.inj (Option.some.inj (hlast.symm.trans hrun'))
    exact hno hp

/-- The last record has no separator, and there is room for it. -/
theorem splitRecords_four : ∃o,splitRecords (ascii "a,b,c,d") lettered 2 (ascii ",")=pure o ∧
    Pieces 2 (records (ascii ",") (ascii "a,b,c,d")) o.contents := by
  obtain ⟨o,hrun,hp,-⟩ := (splitRecords_iff (ascii "a,b,c,d") (ascii ",") (Nat.succ_pos 1)
    (rfl : lettered.files=[]) names_lettered).mpr (.inr ⟨by decide,by decide⟩)
  exact ⟨o,hrun,hp⟩

/-- An unterminated record after a full file goes to that file. -/
theorem not_splitRecords : (splitRecords (ascii "a\nb") lettered 1 [newline]).run.bind
      (·.toOption.map OutFiles.contents)=some [ascii "a\nb"] ∧
    (splitLines (ascii "a\nb") lettered 1).run.bind
      (·.toOption.map OutFiles.contents)=some [ascii "a\n",ascii "b"] := by
  decide +kernel

end Coreutils.SplitRecords
