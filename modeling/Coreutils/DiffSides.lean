import Coreutils.DiffGroups
import Coreutils.GoText

/-!
# The two sides of a comparison

`prep` of `cmds/diff/diff.go` cuts a file into lines and interns a key for each. A missing newline
at the end is part of the last key, so two lines get one key exactly when they have the same bytes
and ending.
-/

namespace Coreutils.DiffSides
open List Coreutils.Alignment DiffGroups GoText

/-- The fields of `options` the comparison and the emitters read. -/
structure Options where
  ignoreCase : Bool := false
  ignoreSpaceChange : Bool := false
  ignoreAllSpace : Bool := false
  context : ℤ := 3
  deriving DecidableEq,Repr

def isSpaceByte (c : UInt8) : Bool :=
  c == 32 || c == 9 || c == 11 || c == 12 || c == 13

def collapseSpace : Bool→Bytes→Bytes
  | _,[] => []
  | run,c::s =>
    if isSpaceByte c then collapseSpace true s
    else if run then 32::c::collapseSpace false s
    else c::collapseSpace false s

def canon (line : Bytes) (opts : Options) : Bytes :=
  let line :=
    if opts.ignoreAllSpace then line.filter (fun c => !isSpaceByte c)
    else if opts.ignoreSpaceChange then collapseSpace false line
    else line
  if opts.ignoreCase then line.map (fun c => if 65≤c ∧ c≤90 then c+32 else c) else line

/-- `side`; the modification time stands as the text the headers print for it. -/
structure Side where
  name : Bytes
  stamp : Bytes
  data : Bytes
  lines : List Bytes := []
  keys : List ℕ := []
  noEOL : Bool := false
  deriving DecidableEq,Repr

/-- A key's number in the table of interned keys, entering it if it is new. -/
def internKey (k : Bytes) (table : List Bytes) : ℕ×List Bytes :=
  if k∈table then (table.idxOf k,table) else (table.length,table++[k])

def lineKey (opts : Options) (noEOL last : Bool) (line : Bytes) : Bytes :=
  if noEOL && last && !opts.ignoreAllSpace && !opts.ignoreSpaceChange then canon line opts++[0]
  else canon line opts

def internLines (opts : Options) (noEOL : Bool) : List Bytes→List Bytes→List ℕ×List Bytes
  | [],table => ([],table)
  | line::rest,table =>
    let (id,table') := internKey (lineKey opts noEOL rest.isEmpty line) table
    let (ids,table'') := internLines opts noEOL rest table'
    (id::ids,table'')

def prep (s : Side) (opts : Options) (table : List Bytes) : Side×List Bytes :=
  if s.data=[] then (s,table)
  else
    let noEOL := s.data.getLast? != some newline
    let d := if noEOL then s.data else s.data.dropLast
    let lines := d.splitOn newline
    let (keys,table') := internLines opts noEOL lines table
    ({ s with lines := lines,keys := keys,noEOL := s.noEOL || noEOL },table')

structure Line where
  text : Bytes
  noEOL : Bool
  deriving DecidableEq,Repr

def markedLines : List Bytes→Bool→List Line
  | [],_ => []
  | [l],noEOL => [⟨l,noEOL⟩]
  | l::l'::ls,noEOL => ⟨l,false⟩::markedLines (l'::ls) noEOL

theorem markedLines_cons (l : Bytes) (ls : List Bytes) (noEOL : Bool) :
    markedLines (l::ls) noEOL=⟨l,noEOL && ls.isEmpty⟩::markedLines ls noEOL := by
  cases ls <;> simp [markedLines]

@[simp] theorem length_markedLines (ls : List Bytes) (noEOL : Bool) :
    (markedLines ls noEOL).length=ls.length := by
  induction ls with
  | nil => rfl
  | cons l ls ih => cases ls <;> simp_all [markedLines]

@[simp] theorem markedLines_map_text (ls : List Bytes) (noEOL : Bool) :
    (markedLines ls noEOL).map Line.text=ls := by
  induction ls with
  | nil => rfl
  | cons l ls ih => cases ls <;> simp_all [markedLines]

def lastFlag (ls : List Line) : Bool := (ls.getLast?.map Line.noEOL).getD false

theorem lastFlag_append {ls : List Line} (h : ls≠[]) (ls' : List Line) :
    lastFlag (ls'++ls)=lastFlag ls := by
  obtain ⟨l,hl⟩ := Option.isSome_iff_exists.mp (getLast?_isSome.mpr h)
  simp [lastFlag,hl]

theorem lastFlag_markedLines (ls : List Bytes) (noEOL : Bool) :
    lastFlag (markedLines ls noEOL)=(noEOL && !ls.isEmpty) := by
  induction ls with
  | nil => simp [markedLines,lastFlag]
  | cons l ls ih =>
    cases ls with
    | nil => simp [markedLines,lastFlag]
    | cons l' ls =>
      have hne : markedLines (l'::ls) noEOL≠[] := by
        rw [←length_pos_iff]
        simp
      rw [markedLines,←singleton_append,lastFlag_append hne,ih]
      rfl

variable {l : Line} {opts : Options} {table : List Bytes}

/-- Only the last line can lack its newline. -/
theorem noEOL_of_markedLines {ls : List Bytes} {noEOL : Bool} {P S : List Line}
    (h : markedLines ls noEOL=P++l::S) (hS : S≠[]) : l.noEOL=false := by
  induction P generalizing ls with
  | nil =>
    cases ls with
    | nil => simp [markedLines] at h
    | cons t ls =>
      rw [markedLines_cons,nil_append,cons.injEq] at h
      cases ls with
      | nil => exact absurd h.2.symm hS
      | cons t' ls => rw [←h.1]; simp
  | cons p P ih =>
    cases ls with
    | nil => simp [markedLines] at h
    | cons t ls =>
      rw [markedLines_cons,cons_append,cons.injEq] at h
      exact ih h.2

def Line.key (l : Line) : Bytes := if l.noEOL then l.text++[0] else l.text

theorem Line.key_inj {m : Line} (hl : 0∉l.text) (hm : 0∉m.text) (h : l.key=m.key) : l=m := by
  obtain ⟨t,e⟩ := l
  obtain ⟨u,f⟩ := m
  simp only [Line.key] at h hl hm
  cases e <;> cases f <;> simp only [Bool.false_eq_true,if_false] at h
  · rw [h]
  · exact absurd (by simp [h]) hl
  · exact absurd (by simp [←h]) hm
  · rw [append_cancel_right h]

theorem internKey_spec (k : Bytes) (h : table.Nodup) :
    ∃t,(internKey k table).2=table++t ∧ (table++t).Nodup ∧ k∈table++t ∧
      (internKey k table).1=(table++t).idxOf k := by
  unfold internKey
  split_ifs with hk
  · exact ⟨[],by simp,by simpa using h,by simpa using hk,by simp⟩
  refine ⟨[k],rfl,?_,by simp,?_⟩
  · rw [nodup_append]
    exact ⟨h,by simp,fun a ha b hb => by
      rw [mem_singleton] at hb
      exact fun e => hk (hb ▸ e ▸ ha)⟩
  · simp [idxOf_append,hk]

/-- Interning the lines of a side numbers their keys by their place in the final table. -/
theorem internLines_spec (hb : opts.ignoreSpaceChange=false)
    (hw : opts.ignoreAllSpace=false) (hi : opts.ignoreCase=false) (noEOL : Bool)
    (ls : List Bytes) (h : table.Nodup) :
    ∃t,(internLines opts noEOL ls table).2=table++t ∧ (table++t).Nodup ∧
      (∀l∈markedLines ls noEOL,l.key∈table++t) ∧ (internLines opts noEOL ls table).1 =
        (markedLines ls noEOL).map (fun l => (table++t).idxOf l.key) := by
  induction ls generalizing table with
  | nil => exact ⟨[],by simp [internLines],by simpa using h,by simp [markedLines],rfl⟩
  | cons line rest ih =>
    have hkey : lineKey opts noEOL rest.isEmpty line =
        (⟨line,noEOL && rest.isEmpty⟩ : Line).key := by
      simp [lineKey,canon,Line.key,hb,hw,hi]
    obtain ⟨t₁,ht₁,hn₁,hm₁,hid⟩ :=
      internKey_spec (⟨line,noEOL && rest.isEmpty⟩ : Line).key h
    obtain ⟨t₂,ht₂,hn₂,hm₂,hids⟩ := ih hn₁
    rw [append_assoc] at ht₂ hn₂ hm₂ hids
    refine ⟨t₁++t₂,?_,hn₂,?_,?_⟩
    · simp [internLines,hkey,ht₁,ht₂]
    · rw [markedLines_cons]
      rintro l (_ | ⟨_,hl⟩)
      · rw [←append_assoc]
        exact mem_append_left _ hm₁
      · exact hm₂ l hl
    · simp only [internLines,hkey,markedLines_cons,map_cons,ht₁,hids,hid]
      rw [←append_assoc,idxOf_append_of_mem hm₁]

/-- A text the comparison reads as text: no NUL byte. A slice of `2 ^ 62` bytes does not exist. -/
structure Text where
  bytes : Bytes
  noNul : 0∉bytes
  fits : bytes.length<2^62

def Text.lines (t : Text) : List Bytes := (splitFileLines t.bytes).1

def Text.noEOL (t : Text) : Bool := (splitFileLines t.bytes).2

def Text.marked (t : Text) : List Line := markedLines t.lines t.noEOL

def Text.NoCR (t : Text) : Prop := ∀l∈t.lines,l.getLast?≠some carriageReturn

theorem Text.length_lines (t : Text) : t.lines.length<2^62 :=
  lt_of_le_of_lt (length_splitFileLines_le t.bytes) t.fits

theorem Text.noEOL_eq (t : Text) : t.noEOL=lastFlag t.marked := by
  rw [Text.marked,lastFlag_markedLines]
  simp only [Text.noEOL,Text.lines,splitFileLines]
  split
  · rfl
  · split
    · rfl
    · simp

/-- A file on one side of a comparison. The names and times of the headers are on one line. -/
structure File where
  text : Text
  name : Bytes
  stamp : Bytes
  name_line : newline∉name
  stamp_line : newline∉stamp

def File.side (f : File) : Side := { name := f.name,stamp := f.stamp,data := f.text.bytes }

def compare (a b : File) (opts : Options) : Option (Side×Side×List Group) := do
  let (sa,table) := prep a.side opts []
  let (sb,_) := prep b.side opts table
  let gs ← diffGroups sa.keys sb.keys
  pure (sa,sb,gs)

theorem splitOn_dropLast {s : Bytes} (h : s.getLast?=some newline) :
    s.dropLast.splitOn newline=(s.splitOn newline).dropLast := by
  have hs : s=s.dropLast++[newline] := by
    rw [dropLast_append_getLast?]
    simpa using h
  conv_rhs => rw [hs]
  rw [splitOn_append_cons_self]
  simp

def File.prepared (f : File) (keys : List ℕ) : Side :=
  { f.side with lines := f.text.lines,keys := keys,noEOL := f.text.noEOL }

theorem prep_side (f : File) (opts : Options) (table : List Bytes) : (prep f.side opts table) =
      (f.prepared (internLines opts f.text.noEOL f.text.lines table).1,
        (internLines opts f.text.noEOL f.text.lines table).2) := by
  by_cases hd : f.text.bytes=[]
  · simp [prep,File.prepared,File.side,Text.lines,Text.noEOL,hd,splitFileLines,internLines]
  by_cases hl : f.text.bytes.getLast?=some newline
  · simp [prep,File.prepared,File.side,Text.lines,Text.noEOL,hd,hl,splitFileLines,splitOn_dropLast]
  · have hne : (f.text.bytes.getLast? != some newline)=true := by simpa using hl
    simp [prep,File.prepared,File.side,Text.lines,Text.noEOL,hd,hl,hne,splitFileLines]

theorem mem_markedLines {ls : List Bytes} {noEOL : Bool}
    (h : l∈markedLines ls noEOL) : l.text∈ls := by
  rw [←markedLines_map_text ls noEOL]
  exact mem_map_of_mem h

theorem Text.zero_notMem_marked {t : Text} (h : l∈t.marked) : 0∉l.text :=
  fun h₀ => t.noNul ((mem_splitFileLines (mem_markedLines h)).2 h₀)

structure Side.Holds (s : Side) (f : File) : Prop where
  name : s.name=f.name
  stamp : s.stamp=f.stamp
  lines : s.lines=f.text.lines
  noEOL : s.noEOL=f.text.noEOL

/-- Under the default comparison the groups are those of an alignment of the marked lines. -/
theorem compare_spec (a b : File) (hb : opts.ignoreSpaceChange=false)
    (hw : opts.ignoreAllSpace=false) (hi : opts.ignoreCase=false) :
    ∃sa sb lead chunks,compare a b opts=some (sa,sb,groupsOf 0 0 lead chunks) ∧
      sa.Holds a ∧ sb.Holds b ∧ a.text.marked=oldSide lead chunks ∧
      b.text.marked=newSide lead chunks ∧ Proper chunks := by
  obtain ⟨t₁,ht₁,hn₁,hm₁,hk₁⟩ :=
    internLines_spec hb hw hi a.text.noEOL a.text.lines nodup_nil
  obtain ⟨t₂,ht₂,hn₂,hm₂,hk₂⟩ := internLines_spec hb hw hi b.text.noEOL b.text.lines hn₁
  simp only [nil_append] at *
  -- the numbers of the first side do not change when the second side adds keys
  have hk₁' : (internLines opts a.text.noEOL a.text.lines []).1 =
      a.text.marked.map (fun l => (t₁++t₂).idxOf l.key) := by
    rw [hk₁]
    refine map_congr_left (fun l hl => ?_)
    rw [idxOf_append_of_mem (hm₁ l hl)]
  have hinj : ∀x∈a.text.marked,∀y∈b.text.marked,
      (t₁++t₂).idxOf x.key=(t₁++t₂).idxOf y.key→x=y := by
    intro x hx y hy hxy
    have hkey : x.key=y.key :=
      (idxOf_inj (mem_append_left _ (hm₁ x hx))).mp hxy
    exact Line.key_inj (Text.zero_notMem_marked hx) (Text.zero_notMem_marked hy) hkey
  obtain ⟨lead,chunks,hgs,ha,hb',hproper⟩ := diffGroups_spec
    (internLines opts a.text.noEOL a.text.lines []).1
    (internLines opts b.text.noEOL b.text.lines t₁).1
  obtain ⟨lead',chunks',rfl,rfl,hA,hB⟩ :=
    exists_of_map _ hinj (hk₁'.symm.trans ha) (hk₂.symm.trans hb')
  refine ⟨a.prepared (internLines opts a.text.noEOL a.text.lines []).1,
    b.prepared (internLines opts b.text.noEOL b.text.lines t₁).1,lead',chunks',?_,
    ⟨rfl,rfl,rfl,rfl⟩,⟨rfl,rfl,rfl,rfl⟩,hA,hB,hproper.of_map⟩
  simp only [compare,prep_side,ht₁,File.prepared,hgs,groupsOf_map]
  rfl

/-- The sides hold the files, and the groups are those of an alignment of their marked lines. -/
structure Aligned (a b : File) (sa sb : Side) (gs : List Group) (lead : List Line)
    (chunks : List (Chunk Line)) : Prop where
  sideOld : sa.Holds a
  sideNew : sb.Holds b
  groups : gs=groupsOf 0 0 lead chunks
  old : a.text.marked=oldSide lead chunks
  new : b.text.marked=newSide lead chunks
  proper : Proper chunks

theorem compare_aligned {a b : File} {sa sb : Side} {gs : List Group}
    (h : compare a b opts=some (sa,sb,gs)) (hb : opts.ignoreSpaceChange=false)
    (hw : opts.ignoreAllSpace=false) (hi : opts.ignoreCase=false) :
    ∃lead chunks,Aligned a b sa sb gs lead chunks := by
  obtain ⟨sa',sb',lead,chunks,h',hsa,hsb,hold,hnew,hp⟩ := compare_spec a b hb hw hi
  obtain ⟨rfl,rfl,rfl⟩ : sa=sa' ∧ sb=sb' ∧ gs=groupsOf 0 0 lead chunks := by
    simpa using h.symm.trans h'
  exact ⟨lead,chunks,hsa,hsb,rfl,hold,hnew,hp⟩

section
variable {a b : File} {sa sb : Side} {gs : List Group} {lead : List Line}
  {chunks : List (Chunk Line)}

section
variable (h : Aligned a b sa sb gs lead chunks)
include h

theorem Aligned.lines_old : (sa.lines.length : ℤ)<2^62 := by
  rw [h.sideOld.lines]
  exact_mod_cast a.text.length_lines

theorem Aligned.lines_new : (sb.lines.length : ℤ)<2^62 := by
  rw [h.sideNew.lines]
  exact_mod_cast b.text.length_lines

theorem Aligned.marked_old : markedLines sa.lines sa.noEOL=oldSide lead chunks := by
  rw [h.sideOld.lines,h.sideOld.noEOL,←h.old,Text.marked]

theorem Aligned.marked_new : markedLines sb.lines sb.noEOL=newSide lead chunks := by
  rw [h.sideNew.lines,h.sideNew.noEOL,←h.new,Text.marked]

end

end

end Coreutils.DiffSides
