import Coreutils.GoText
import Mathlib.Data.List.DropRight

/-!
# The record conversions of dd

The three writers of `dd`, each as a state that keeps a part of a record and lists what it has
passed on. None depends on how its input is cut into writes.
-/

namespace Coreutils.DdRecords
open List GoText

def space : UInt8 := 32

/-- `writes` is what `w` was given, one entry for each call of `writeAll`. -/
structure BlockWriter where
  width : ℕ
  translate : Option (UInt8→UInt8) := none
  record : Bytes := []
  overflow : Bool := false
  truncated : ℕ := 0
  writes : List Bytes := []

def BlockWriter.emit (b : BlockWriter) : BlockWriter :=
  let record := b.record++replicate (b.width-b.record.length) space
  { b with
    record := []
    overflow := false
    truncated := if b.overflow then b.truncated+1 else b.truncated
    writes := b.writes++[record.map (b.translate.getD id)] }

def BlockWriter.put (b : BlockWriter) (c : UInt8) : BlockWriter :=
  if c=newline then b.emit
  else if b.record.length<b.width then { b with record := b.record++[c] }
  else { b with overflow := true }

def BlockWriter.write (b : BlockWriter) (p : Bytes) : BlockWriter := p.foldl BlockWriter.put b

def BlockWriter.flush (b : BlockWriter) : BlockWriter :=
  if b.record=[] ∧ b.overflow=false then b else b.emit

structure UnblockWriter where
  width : ℕ
  record : Bytes := []
  writes : List Bytes := []

def UnblockWriter.emit (u : UnblockWriter) : UnblockWriter :=
  { u with record := [],writes := u.writes++[u.record.rdropWhile (·=space),[newline]] }

def UnblockWriter.put (u : UnblockWriter) (c : UInt8) : UnblockWriter :=
  let u := { u with record := u.record++[c] }
  if u.record.length=u.width then u.emit else u

def UnblockWriter.write (u : UnblockWriter) (p : Bytes) : UnblockWriter :=
  p.foldl UnblockWriter.put u

def UnblockWriter.flush (u : UnblockWriter) : UnblockWriter := if u.record=[] then u else u.emit

/-- The buffer never holds a whole block between two writes. -/
structure ObsWriter where
  obs : ℕ
  buf : Bytes := []
  full : ℕ := 0
  partials : ℕ := 0
  writes : List Bytes := []
  pos : 0<obs
  room : buf.length<obs

def ObsWriter.write (o : ObsWriter) (p : Bytes) : ObsWriter :=
  if p=[] then o
  else if o.buf=[] ∧ o.obs≤p.length then
    ObsWriter.write { o with writes := o.writes++[p.take o.obs],full := o.full+1 } (p.drop o.obs)
  else
    let n := min (o.obs-o.buf.length) p.length
    if h : (o.buf++p.take n).length=o.obs then
      ObsWriter.write { o with
        buf := []
        room := o.pos
        writes := o.writes++[o.buf++p.take n]
        full := o.full+1 } (p.drop n)
    else ObsWriter.write { o with
      buf := o.buf++p.take n
      room := by
        have := o.room
        simp at h ⊢
        omega } (p.drop n)
  termination_by p.length
  decreasing_by
    all_goals
      have := o.pos
      have := o.room
      have := length_pos_iff.mpr ‹p≠[]›
      simp only [length_drop]
      omega

def ObsWriter.flush (o : ObsWriter) : ObsWriter :=
  if o.buf=[] then o
  else { o with buf := [],room := o.pos,writes := o.writes++[o.buf],partials := o.partials+1 }

/-- The lines of a text; the last one may lack its newline. -/
def textLines (data : Bytes) : List Bytes :=
  let lines := data.splitOn newline
  if lines.getLast?=some [] then lines.dropLast else lines

section
variable (width : ℕ) (translate : Option (UInt8→UInt8))

/-- The record of one line. -/
def record (line : Bytes) : Bytes :=
  (line.take width++replicate (width-line.length) space).map (translate.getD id)

/-- The writer after some lines and the beginning of another. -/
def blocking (lines : List Bytes) (line : Bytes) : BlockWriter where
  width
  translate
  record := line.take width
  overflow := width<line.length
  truncated := lines.countP (width<·.length)
  writes := lines.map (record width translate)

theorem length_record (line : Bytes) : (record width translate line).length=width := by
  simp [record]
  omega

variable (lines : List Bytes) (line : Bytes)

theorem emit_blocking : (blocking width translate lines line).emit =
    blocking width translate (lines++[line]) [] := by
  have hpad : width-min width line.length=width-line.length := by omega
  simp [blocking,BlockWriter.emit,record,hpad]
  split <;> rfl

theorem put_blocking {c : UInt8} (hc : c≠newline) :
    (blocking width translate lines line).put c=blocking width translate lines (line++[c]) := by
  simp only [blocking,BlockWriter.put,if_neg hc,length_take,length_append,length_singleton]
  split
  · rw [take_of_length_le (by omega),take_of_length_le (by simp; omega)]
    congr 1
    simp only [decide_eq_decide]
    omega
  · rw [take_append_of_le_length (by omega)]
    simp
    omega

theorem write_blocking (p : Bytes) : ∃ls l,(p.splitOn newline).modifyHead (line++·)=ls++[l] ∧
    (blocking width translate lines line).write p=blocking width translate (lines++ls) l := by
  induction p generalizing lines line with
  | nil => exact ⟨[],line,by simp,by simp [BlockWriter.write]⟩
  | cons c p ih =>
    rw [splitOn_cons_eq_if_modifyHead,BlockWriter.write,foldl_cons]
    by_cases hc : c=newline
    · obtain ⟨ls,l,he,hb⟩ := ih (lines++[line]) []
      have he : p.splitOn newline=ls++[l] := (congrFun modifyHead_id _).symm.trans he
      refine ⟨line::ls,l,by simp [hc,he],?_⟩
      rw [BlockWriter.put,if_pos hc,emit_blocking,append_cons lines line ls]
      exact hb
    · obtain ⟨ls,l,he,hb⟩ := ih lines (line++[c])
      rw [put_blocking width translate lines line hc]
      exact ⟨ls,l,by simpa [hc,Function.comp_def] using he,hb⟩

/-- Every line becomes one record, however the text is cut into writes. -/
theorem block_writes (hw : 0<width) (ps : List Bytes) :
    let b := (ps.foldl BlockWriter.write { width,translate }).flush
    b.writes=(textLines ps.flatten).map (record width translate) ∧
      b.truncated=(textLines ps.flatten).countP (width<·.length) := by
  obtain ⟨ls,l,he,hb⟩ := write_blocking width translate [] [] ps.flatten
  have he : ps.flatten.splitOn newline=ls++[l] := (congrFun modifyHead_id _).symm.trans he
  have hstart : blocking width translate [] []={ width,translate } := by simp [blocking]
  rw [hstart,BlockWriter.write,foldl_flatten] at hb
  change ps.foldl BlockWriter.write _=_ at hb
  rw [hb,textLines,he,BlockWriter.flush]
  by_cases hl : l=[]
  · simp [hl,blocking]
  · rw [if_neg (by simp [blocking,hl]; omega),emit_blocking]
    simp [hl,blocking]

end

/-- What has been passed on is the input without what the buffer holds, in blocks. -/
structure Reblocking (obs : ℕ) (data : Bytes) (o : ObsWriter) : Prop where
  size : o.obs=obs
  data : o.writes.flatten++o.buf=data
  blocks : ∀w∈o.writes,w.length=obs
  full : o.full=o.writes.length
  partials : o.partials=0

/-- The data was passed on in blocks and at most one shorter write at the end. -/
def InBlocks (obs : ℕ) (data : Bytes) (o : ObsWriter) : Prop :=
  o.writes.flatten=data ∧ ∃blocks rest,o.writes=blocks++rest ∧ (∀w∈blocks,w.length=obs) ∧
    (∀w∈rest,w≠[] ∧ w.length<obs) ∧ rest.length≤1 ∧ o.full=blocks.length ∧
    o.partials=rest.length

variable {obs width : ℕ} {o : ObsWriter} {data : Bytes}

theorem Reblocking.write (h : Reblocking obs data o) (p : Bytes) :
    Reblocking obs (data++p) (o.write p) := by
  obtain ⟨rfl,rfl,hb,hf,hp⟩ := h
  fun_induction ObsWriter.write o p with
  | case1 o => exact ⟨rfl,by simp,hb,hf,hp⟩
  | case2 o p _ hn ih =>
    have hr := ih (by simp [hf]) hp (by simpa [or_imp,forall_and,hn.2] using hb)
    simpa [hn.1] using hr
  | case3 o p _ _ n hn ih =>
    have hr := ih (by simp [hf]) hp (by simpa [or_imp,forall_and] using ⟨hb,by simpa using hn⟩)
    simpa using hr
  | case4 o p _ _ n hn ih =>
    have hr := ih hf hp hb
    simpa using hr

theorem reblock_writes (hpos : 0<obs) (ps : List Bytes) : InBlocks obs ps.flatten
    (ps.foldl ObsWriter.write { obs,buf := [],pos := hpos,room := hpos }).flush := by
  have h : ∀(ps : List Bytes) data o,Reblocking obs data o→
      Reblocking obs (data++ps.flatten) (ps.foldl ObsWriter.write o) := by
    intro ps
    induction ps with
    | nil => simp
    | cons p ps ih =>
      intro data o h
      simpa using ih _ _ (h.write p)
  have h := h ps [] { obs,buf := [],pos := hpos,room := hpos } ⟨rfl,rfl,by simp,rfl,rfl⟩
  generalize ps.foldl ObsWriter.write _=o at h
  have hroom := o.room
  rw [h.size] at hroom
  rw [ObsWriter.flush]
  split_ifs with hn
  · exact ⟨by simpa [hn] using h.data,o.writes,[],by simp,h.blocks,by simp,by simp,h.full,
      h.partials⟩
  · exact ⟨by simpa using h.data,o.writes,[o.buf],rfl,h.blocks,by simp [hn,hroom],le_rfl,h.full,
      by simp [h.partials]⟩

/-- A record becomes a line without its trailing spaces. -/
theorem unblock_record {r : Bytes} (hw : 0<width) (hr : r.length=width) (writes : List Bytes) :
    r.foldl UnblockWriter.put { width,writes } =
      { width,writes := writes++[r.rdropWhile (·=space),[newline]] } := by
  have h : ∀(q : Bytes),q.length<width→
      q.foldl UnblockWriter.put { width,writes }={ width,writes,record := q } := by
    intro q hq
    induction q using reverseRecOn with
    | nil => rfl
    | append_singleton q c ih =>
      rw [length_append,length_singleton] at hq
      have hne : q.length+1≠width := by omega
      rw [foldl_append,ih (by omega)]
      simp [UnblockWriter.put,hne]
  obtain ⟨q,c,rfl⟩ := (eq_nil_or_concat' r).resolve_left (by rintro rfl; simp at hr; omega)
  rw [length_append,length_singleton] at hr
  rw [foldl_append,h q (by omega)]
  simp [UnblockWriter.put,hr,UnblockWriter.emit]

theorem unblock_records (hw : 0<width) {rs : List Bytes} (hr : ∀r∈rs,r.length=width)
    (writes : List Bytes) :
      (rs.flatten.foldl UnblockWriter.put { width,writes }).flush.writes.flatten =
      writes.flatten++printLines (rs.map (rdropWhile (·=space))) := by
  induction rs generalizing writes with
  | nil => simp [UnblockWriter.flush,printLines]
  | cons r rs ih =>
    simp only [mem_cons,forall_eq_or_imp] at hr
    rw [flatten_cons,foldl_append,unblock_record hw hr.1,ih hr.2]
    simp [printLines]

theorem record_trim {line : Bytes} (hl : line.length≤width) (hs : line.getLast?≠some space) :
    (record width none line).rdropWhile (·=space)=line := by
  have htrim : ∀n,(line++replicate n space).rdropWhile (·=space)=line := by
    intro n
    induction n with
    | zero =>
      rw [replicate_zero,append_nil,rdropWhile_eq_self_iff]
      intro hne
      simpa [getLast?_eq_some_getLast hne] using hs
    | succ n ih =>
      rw [replicate_succ',←append_assoc,rdropWhile_concat_pos _ _ _ (by simp)]
      exact ih
  simpa [record,take_of_length_le hl] using htrim _

theorem textLines_printLines {lines : List Bytes} (h : ∀l∈lines,newline∉l) :
    textLines (printLines lines)=lines := by
  have hs := splitOn_printLines h []
  simp only [append_nil] at hs
  simp [textLines,hs]

/-- `conv=block` of a text in some writes, the output in blocks, and `conv=unblock` of those. -/
def blockAndBack (cbs obs : ℕ) (hobs : 0<obs) (ps : List Bytes) : Bytes :=
  let b := (ps.foldl BlockWriter.write { width := cbs }).flush
  let o := (b.writes.foldl ObsWriter.write { obs,buf := [],pos := hobs,room := hobs }).flush
  (o.writes.foldl UnblockWriter.write { width := cbs }).flush.writes.flatten

/-- The conversions and the blocks of dd, for every division of the input into writes. -/
theorem blockAndBack_printLines (cbs obs : ℕ) (hcbs : 0<cbs) (hobs : 0<obs) (ps : List Bytes) :
    (∀lines,(∀l∈lines,newline∉l ∧ l.length≤cbs ∧ l.getLast?≠some space)→
      ps.flatten=printLines lines → blockAndBack cbs obs hobs ps=printLines lines) ∧
    (∀translate,let b := (ps.foldl BlockWriter.write { width := cbs,translate }).flush
      b.writes=(textLines ps.flatten).map (record cbs translate) ∧
      (∀w∈b.writes,w.length=cbs) ∧ b.truncated=(textLines ps.flatten).countP (cbs<·.length)) ∧
    InBlocks obs ps.flatten
      (ps.foldl ObsWriter.write { obs,buf := [],pos := hobs,room := hobs }).flush := by
  refine ⟨fun lines hl hp => ?_,fun translate => ?_,reblock_writes hobs ps⟩
  · have hb := (block_writes cbs none hcbs ps).1
    rw [hp,textLines_printLines fun l h => (hl l h).1] at hb
    have hu := @unblock_records cbs hcbs (lines.map (record cbs none)) (by simp [length_record]) []
    rw [←(reblock_writes hobs (lines.map (record cbs none))).1,foldl_flatten] at hu
    simp only [blockAndBack,hb]
    refine hu.trans ?_
    rw [flatten_nil,map_map]
    have htrim l (h : l∈lines) := record_trim (hl l h).2.1 (hl l h).2.2
    exact congrArg printLines ((map_congr_left htrim).trans (map_id _))
  · have hb := block_writes cbs translate hcbs ps
    exact ⟨hb.1,by simp [hb.1,length_record],hb.2⟩

/-- Two lines in three writes, in records of three bytes and blocks of two. -/
theorem blockAndBack_two_lines :
    blockAndBack 3 2 (by decide) [ascii "ab\nc",[],ascii "\n"]=ascii "ab\nc\n" := by
  exact (blockAndBack_printLines 3 2 (by decide) (by decide) [ascii "ab\nc",[],ascii "\n"]).1
    [ascii "ab",ascii "c"] (by decide) (by decide)

end Coreutils.DdRecords
