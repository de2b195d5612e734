import Coreutils.Readers
import Mathlib.Data.List.Induction

/-!
# The initial output of tail

`tailStream` reads its input in pieces of any size. With `+N` it writes as it reads; without it
keeps the last bytes or lines to the end. The output depends on the whole input only, and what is
written before the end is a beginning of it.
-/

namespace Coreutils.TailStream
open List GoText Readers

inductive Selection where
  | bytesFrom (n : ℕ)
  | bytesLast (n : ℕ)
  | linesFrom (n : ℕ)
  | linesLast (n : ℕ)

/-- The variables of `tailStream`, with the part of a line that was read. -/
structure Progress where
  skip : ℕ := 0
  keep : Bytes := []
  queue : List Bytes := []
  line : Bytes := []
  deriving DecidableEq

def start : Selection→Progress
  | .bytesFrom n | .linesFrom n => { skip := n-1 }
  | _ => {}

def push (n : ℕ) (queue : List Bytes) (line : Bytes) : List Bytes :=
  if n=0 then queue
  else if n<queue.length+1 then (queue++[line]).tail
  else queue++[line]

def trim (n : ℕ) (keep : Bytes) : Bytes := if n<keep.length then keep.drop (keep.length-n) else keep

section
variable (lineEnd : UInt8)

def readByte (sel : Selection) (p : Progress) (c : UInt8) : Progress×Bytes :=
  match sel with
  | .linesFrom _ =>
    if p.skip=0 then (p,[c])
    else ({ p with skip := if c=lineEnd then p.skip-1 else p.skip },[])
  | .linesLast n =>
    if c=lineEnd then ({ p with queue := push n p.queue (p.line++[c]),line := [] },[])
    else ({ p with line := p.line++[c] },[])
  | _ => (p,[])

def readBytes (sel : Selection) : Progress→Bytes→Progress×Bytes
  | p,[] => (p,[])
  | p,c::chunk =>
    ((readBytes sel (readByte lineEnd sel p c).1 chunk).1,
      (readByte lineEnd sel p c).2++(readBytes sel (readByte lineEnd sel p c).1 chunk).2)

def feed (sel : Selection) (p : Progress) (chunk : Bytes) : Progress×Bytes :=
  match sel with
  | .bytesFrom _ => ({ p with skip := p.skip-chunk.length },chunk.drop p.skip)
  | .bytesLast n => ({ p with keep := if n=0 then p.keep else trim n (p.keep++chunk) },[])
  | sel => readBytes lineEnd sel p chunk

end

def finish (sel : Selection) (p : Progress) : Bytes :=
  match sel with
  | .bytesLast _ => p.keep
  | .linesLast n => (if p.line≠[] then push n p.queue p.line else p.queue).flatten
  | _ => []

section
variable (lineEnd : UInt8)

def linesOf (data : Bytes) : List Bytes := (readLines lineEnd [] data).filter (·≠[])

def tailOf (sel : Selection) (data : Bytes) : Bytes :=
  match sel with
  | .bytesFrom n => data.drop (n-1)
  | .bytesLast n => data.drop (data.length-n)
  | .linesFrom n => ((linesOf lineEnd data).drop (n-1)).flatten
  | .linesLast n => ((linesOf lineEnd data).drop ((linesOf lineEnd data).length-n)).flatten

def Reads (sel : Selection) (data : Bytes) (p : Progress) (out : Bytes) : Prop :=
  match sel with
  | .bytesFrom n => p.skip=n-1-data.length ∧ out=data.drop (n-1)
  | .bytesLast n => p.keep=data.drop (data.length-n) ∧ out=[]
  | .linesFrom n => ∃ls l,readLines lineEnd [] data=ls++[l] ∧ p.skip=n-1-ls.length ∧
    out=((ls++[l]).drop (n-1)).flatten
  | .linesLast n => ∃ls,readLines lineEnd [] data=ls++[p.line] ∧
    p.queue=ls.drop (ls.length-n) ∧ out=[]

end

variable {lineEnd : UInt8} {sel : Selection} {data l : Bytes} {p : Progress} {out : Bytes}
  {ls : List Bytes}

theorem reads_start (lineEnd : UInt8) (sel : Selection) : Reads lineEnd sel [] (start sel) [] := by
  cases sel with
  | bytesFrom | bytesLast => simp [Reads,start]
  | linesFrom n =>
    refine ⟨[],[],rfl,rfl,?_⟩
    cases n-1 <;> simp
  | linesLast n => exact ⟨[],rfl,drop_nil.symm,rfl⟩

theorem push_drop (n : ℕ) (ls : List Bytes) (l : Bytes) :
    push n (ls.drop (ls.length-n)) l=(ls++[l]).drop ((ls++[l]).length-n) := by
  unfold push
  split
  · rename_i h
    simp [h]
  simp only [length_drop,length_append,length_singleton]
  split
  · have hne : ls.drop (ls.length-n)≠[] := by
      intro hnil
      have := congrArg length hnil
      simp only [length_drop,length_nil] at this
      omega
    rw [tail_append_of_ne_nil hne,tail_drop,drop_append_of_le_length (by omega)]
    congr 2
    omega
  · rw [drop_append_of_le_length (by omega)]
    congr 2
    omega

/-- One more byte ends the last line or goes on with it. -/
theorem readLines_snoc (h : readLines lineEnd [] data=ls++[l]) (c : UInt8) :
    readLines lineEnd [] (data++[c]) = if c=lineEnd then ls++[l++[c]]++[[]] else ls++[l++[c]] := by
  rw [readLines_append,h]
  simp only [readLines]
  split <;> simp

/-- What is left of the lines after the ones that are passed over. -/
theorem flatten_drop_snoc (k : ℕ) (ls : List Bytes) (l : Bytes) :
    ((ls++[l]).drop k).flatten=(ls.drop k).flatten++if k≤ls.length then l else [] := by
  rw [drop_append,flatten_append]
  congr 1
  split_ifs with h
  · simp [Nat.sub_eq_zero_of_le h]
  · rw [drop_eq_nil_of_le (by simp only [length_singleton]; omega)]
    rfl

theorem readByte_linesFrom {n : ℕ} (h : Reads lineEnd (.linesFrom n) data p out) (c : UInt8) :
    Reads lineEnd (.linesFrom n) (data++[c]) (readByte lineEnd (.linesFrom n) p c).1
      (out++(readByte lineEnd (.linesFrom n) p c).2) := by
  obtain ⟨ls,l,hread,hskip,rfl⟩ := h
  have hsnoc := readLines_snoc hread c
  have hlen : (ls++[l++[c]]).length=ls.length+1 := by simp
  by_cases hdone : n-1≤ls.length
  · -- all lines that are passed over were read
    have hbyte : readByte lineEnd (.linesFrom n) p c=(p,[c]) := if_pos (by omega)
    rw [hbyte]
    split at hsnoc
    · refine ⟨ls++[l++[c]],[],hsnoc,by simp only; omega,?_⟩
      rw [flatten_drop_snoc,flatten_drop_snoc,flatten_drop_snoc,if_pos hdone,if_pos hdone]
      simp
    · refine ⟨ls,l++[c],hsnoc,hskip,?_⟩
      simp [flatten_drop_snoc,hdone]
  · have hbyte : readByte lineEnd (.linesFrom n) p c =
        ({ p with skip := if c=lineEnd then p.skip-1 else p.skip },[]) := if_neg (by omega)
    rw [hbyte]
    split_ifs at hsnoc with hc
    · refine ⟨ls++[l++[c]],[],hsnoc,?_,?_⟩
      · simp only [if_pos hc]
        omega
      · rw [flatten_drop_snoc,flatten_drop_snoc,flatten_drop_snoc,if_neg hdone,if_neg hdone]
        simp
    · refine ⟨ls,l++[c],hsnoc,?_,?_⟩
      · simp only [if_neg hc]
        exact hskip
      · simp [flatten_drop_snoc,hdone]

theorem readByte_linesLast {n : ℕ} (h : Reads lineEnd (.linesLast n) data p out) (c : UInt8) :
    Reads lineEnd (.linesLast n) (data++[c]) (readByte lineEnd (.linesLast n) p c).1
      (out++(readByte lineEnd (.linesLast n) p c).2) := by
  obtain ⟨ls,hread,hqueue,rfl⟩ := h
  have hsnoc := readLines_snoc hread c
  simp only [readByte]
  split_ifs with hc
  · rw [if_pos hc] at hsnoc
    refine ⟨ls++[p.line++[c]],hsnoc,?_,rfl⟩
    rw [hqueue,push_drop]
  · rw [if_neg hc] at hsnoc
    exact ⟨ls,hsnoc,hqueue,rfl⟩

theorem readBytes_reads (hstep : ∀{data p out} (c : UInt8),Reads lineEnd sel data p out→
      Reads lineEnd sel (data++[c]) (readByte lineEnd sel p c).1
        (out++(readByte lineEnd sel p c).2)) (h : Reads lineEnd sel data p out) (chunk : Bytes) :
    Reads lineEnd sel (data++chunk) (readBytes lineEnd sel p chunk).1
      (out++(readBytes lineEnd sel p chunk).2) := by
  induction chunk generalizing data p out with
  | nil => simpa [readBytes] using h
  | cons c chunk ih =>
    have := ih (hstep c h)
    rwa [append_assoc,append_assoc] at this

theorem trim_append (n : ℕ) (data chunk : Bytes) : trim n (data.drop (data.length-n)++chunk) =
      (data++chunk).drop ((data++chunk).length-n) := by
  have hdrop : data.drop (data.length-n)++chunk=(data++chunk).drop (data.length-n) := by
    rw [drop_append_of_le_length (by omega)]
  rw [hdrop,trim]
  split_ifs with h
  · rw [drop_drop]
    congr 1
    simp only [length_drop] at h ⊢
    omega
  · congr 1
    simp only [length_drop,length_append] at h ⊢
    omega

/-- A piece of any size is read. -/
theorem feed_reads (h : Reads lineEnd sel data p out) (chunk : Bytes) :
    Reads lineEnd sel (data++chunk) (feed lineEnd sel p chunk).1
      (out++(feed lineEnd sel p chunk).2) := by
  cases sel with
  | bytesFrom n =>
    obtain ⟨hskip,rfl⟩ := h
    refine ⟨?_,?_⟩
    · simp only [feed,length_append]
      omega
    · simp only [feed,hskip]
      rw [drop_append]
  | bytesLast n =>
    obtain ⟨hkeep,rfl⟩ := h
    refine ⟨?_,rfl⟩
    simp only [feed,hkeep]
    rcases n.eq_zero_or_pos with rfl | hn
    · simp
    · rw [if_neg (by omega),trim_append]
  | linesFrom n => exact readBytes_reads (fun c h => readByte_linesFrom h c) h chunk
  | linesLast n => exact readBytes_reads (fun c h => readByte_linesLast h c) h chunk

theorem ne_nil_of_mem_readLines (h : readLines lineEnd [] data=ls++[l]) : ∀m∈ls,m≠[] := by
  induction data using reverseRecOn generalizing ls l with
  | nil =>
    have hls : ls=[] := by
      have := congrArg length h
      simp only [readLines,length_append,length_singleton] at this
      exact length_eq_zero_iff.mp (by omega)
    simp [hls]
  | append_singleton data c ih =>
    obtain ⟨ls',l',hread⟩ : ∃ls' l',readLines lineEnd [] data=ls'++[l'] :=
      ⟨_,_,(dropLast_append_getLast (readLines_ne_nil lineEnd [] data)).symm⟩
    have hls' := ih hread
    rw [readLines_snoc hread] at h
    split at h
    · obtain ⟨rfl,-⟩ := append_inj' h rfl
      exact forall_mem_append.mpr ⟨hls',by simp⟩
    · obtain ⟨rfl,-⟩ := append_inj' h rfl
      exact hls'

theorem linesOf_eq (h : readLines lineEnd [] data=ls++[l]) :
    linesOf lineEnd data=ls++if l=[] then [] else [l] := by
  have hls : ls.filter (·≠[])=ls :=
    filter_eq_self.mpr fun m hm => by simpa using ne_nil_of_mem_readLines h m hm
  rw [linesOf,h,filter_append]
  split <;> simp_all

/-- At the end of the input, the part that is wanted was written. -/
theorem finish_reads (h : Reads lineEnd sel data p out) :
    out++finish sel p=tailOf lineEnd sel data := by
  cases sel with
  | bytesFrom n => exact (append_nil out).trans h.2
  | bytesLast n =>
    obtain ⟨hkeep,rfl⟩ := h
    exact hkeep
  | linesFrom n =>
    obtain ⟨ls,l,hread,-,rfl⟩ := h
    simp only [finish,tailOf,linesOf_eq hread,append_nil]
    split_ifs with hl
    · rw [flatten_drop_snoc,hl]
      simp
    · rfl
  | linesLast n =>
    obtain ⟨ls,hread,hqueue,rfl⟩ := h
    simp only [finish,tailOf,linesOf_eq hread,hqueue]
    by_cases hl : p.line=[]
    · simp [hl]
    · simp [hl,push_drop]

/-- What is written before the end of the input is a beginning of the output. -/
theorem Reads.isPrefix (h : Reads lineEnd sel data p out) (more : Bytes) :
    out <+: tailOf lineEnd sel (data++more) := by
  have hmore := feed_reads h more
  rw [←finish_reads hmore,append_assoc]
  exact prefix_append _ _

end Coreutils.TailStream
