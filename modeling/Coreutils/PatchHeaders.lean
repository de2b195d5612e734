import Coreutils.DiffOutput
import Coreutils.PatchParse

/-!
# Reading what `diff` prints

The header expressions of `Parse` on the ranges `diff` prints, and the lines of a patch printed line
by line.
-/

namespace Coreutils.PatchHeaders
open List DiffOutput DiffSides GoText PatchParse

@[simp] theorem lit?_append (p s : Bytes) : lit? p (p++s)=some s := by
  induction p with
  | nil => rfl
  | cons c p ih => simpa [lit?] using ih

@[simp] theorem startsWith_append (p s : Bytes) : startsWith p (p++s)=true := by simp [startsWith]

/-- A string whose first byte ends a number and is no comma. -/
def EndsRange (s : Bytes) : Prop := ∀c∈s.head?,isDigit c=false ∧ c≠44

theorem endsRange_cons {c : UInt8} (hd : isDigit c=false) (hc : c≠44) (s : Bytes) :
    EndsRange (c::s) := by
  simp [EndsRange,hd,hc]

variable {s p : Bytes} {ls : List Bytes}

theorem EndsRange.noDigitHead (h : EndsRange s) : NoDigitHead s :=
  fun c hc => (h c hc).1

theorem range?_single (n : ℕ) (hs : EndsRange s) : range? (digits n++s)=some ((digits n,[]),s) := by
  rw [range?,number?_digits n hs.noDigitHead]
  cases s with
  | nil => rfl
  | cons c s =>
    have hc := (hs c (by simp)).2
    simp only
    split
    · rename_i heq
      simp only [cons.injEq] at heq
      exact absurd heq.1 hc
    · rfl

theorem range?_pair (n m : ℕ) (hs : NoDigitHead s) :
    range? (digits n++44::(digits m++s))=some ((digits n,digits m),s) := by
  rw [range?,number?_digits n (noDigitHead_cons (by decide) _)]
  simp [number?_digits m hs]

theorem itoa_of_nonneg {x : ℤ} (h : 0≤x) : ∃n : ℕ,x=n ∧ itoa x=digits n :=
  ⟨x.toNat,by omega,by rw [itoa,if_neg (by omega),show x.natAbs=x.toNat by omega]⟩

/-- The range of a unified header reads back as the start and the count it was printed for. -/
theorem range?_unifiedRange {i : ℤ} {n : ℕ} (hi : i+1<2^63) (hn : (n : ℤ)<2^63)
    (h₀ : 0 ≤ i ∨ (0 ≤ i+1 ∧ n≠0)) (hs : EndsRange s) :
    ∃r,range? (unifiedRange i n++s)=some (r,s) ∧ unifiedSide r=(i,(n : ℤ)) := by
  obtain ⟨k,hk,hsucc⟩ := itoa_of_nonneg (x := i+1) (by omega)
  have hwrap : wrap64 (i+1)=i+1 := wrap64_of_range (by omega) hi
  unfold unifiedRange
  rw [hwrap,hsucc,itoa_natCast]
  by_cases h₁ : (n : ℤ)=1
  · rw [if_pos h₁,range?_single _ hs]
    refine ⟨_,rfl,?_⟩
    rw [unifiedSide,unifiedRangeVal,atoi_digits (by omega),←hk]
    simp [h₁]
  · rw [if_neg h₁]
    by_cases hz : (n : ℤ)=0
    · obtain ⟨l,rfl⟩ := Int.eq_ofNat_of_zero_le (h₀.resolve_right (by omega))
      rw [if_pos hz,itoa_natCast,append_assoc]
      have hzero : ascii ",0" ++ s=44::(digits 0++s) := rfl
      rw [hzero,range?_pair _ _ hs.noDigitHead]
      refine ⟨_,rfl,?_⟩
      rw [unifiedSide,unifiedRangeVal,atoi_digits (by omega),atoiDefault_digits (by omega)]
      simp [hz]
    · rw [if_neg hz,append_assoc,append_assoc]
      have hcomma : ascii "," ++ (digits n++s)=44::(digits n++s) := rfl
      rw [hcomma,range?_pair _ _ hs.noDigitHead]
      refine ⟨_,rfl,?_⟩
      rw [unifiedSide,unifiedRangeVal,atoi_digits (by omega),atoiDefault_digits (by omega),←hk]
      simp [show n≠0 by omega]

theorem newline_notMem_digits (n : ℕ) : newline∉digits n := fun h =>
  absurd (isDigit_of_mem_digits h) (by decide)

theorem newline_notMem_itoa (x : ℤ) : newline∉itoa x := by
  rw [itoa]
  split
  · rw [mem_cons,not_or]
    exact ⟨by decide,newline_notMem_digits _⟩
  · exact newline_notMem_digits _

theorem noNewline_eq : ∃t,noNewline=92::t := ⟨_,rfl⟩

@[simp] theorem ok_bind {ε α β : Type} (x : α) (f : α→Except ε β) : (Except.ok x >>= f)=f x := rfl

@[simp] theorem error_bind {ε α β : Type} (e : ε) (f : α→Except ε β) :
    (Except.error e >>= f)=.error e := rfl

def raw (l : Bytes) : RawLine := ⟨l,false⟩

theorem rawLines_false (ls : List Bytes) : rawLines ls false=ls.map (fun l => raw (trimCR l)) := by
  induction ls with
  | nil => rfl
  | cons l ls ih =>
    cases ls with
    | nil => rfl
    | cons l' ls => simpa [rawLines,raw] using ih

/-- A printed line: no newline inside and no carriage return at its end. -/
structure Printed (l : Bytes) : Prop where
  newline_notMem : newline∉l
  noCR : l.getLast?≠some carriageReturn

theorem printed_lines {t : Text} (h : t.NoCR) : ∀l∈t.lines,Printed l :=
  fun l hl => ⟨(mem_splitFileLines hl).1,h l hl⟩

theorem Printed.trimCR {l : Bytes} (h : Printed l) : trimCR l=l := by
  simp [PatchParse.trimCR,h.noCR]

theorem trimCR_append (hp : p.getLast?≠some carriageReturn) (s : Bytes) :
    trimCR (p++s)=p++trimCR s := by
  rcases eq_nil_or_concat' s with rfl | ⟨s,c,rfl⟩
  · simp [PatchParse.trimCR,hp]
  · rw [←append_assoc]
    simp only [PatchParse.trimCR,getLast?_concat]
    split <;> simp

/-- A marked line: mark and text are on one line, and neither ends in a carriage return. -/
theorem Printed.append (hp : Printed p) (hs : Printed s) : Printed (p++s) := by
  refine ⟨by simp [hp.newline_notMem,hs.newline_notMem],?_⟩
  rw [getLast?_append]
  cases h : s.getLast? with
  | none => exact hp.noCR
  | some c => simpa [h] using hs.noCR

section
variable {s : Side} {mark : Bytes} {out : List Bytes}

theorem printed_noNewline : Printed noNewline := ⟨by decide,by decide⟩

section
variable (hs : ∀l∈s.lines,Printed l) (hm : Printed mark)
include hs hm

theorem printed_printLine {i : ℕ} (h : printLine s mark i=some out) : ∀l∈out,Printed l := by
  unfold printLine at h
  split at h
  · simp at h
  rename_i t ht
  have hline := hm.append (hs t (mem_of_getElem? ht))
  split at h
  · obtain rfl := Option.some.inj h
    rintro l (_ | ⟨_,_ | ⟨_,⟨⟩⟩⟩)
    · exact hline
    · exact printed_noNewline
  · obtain rfl := Option.some.inj h
    rintro l (_ | ⟨_,⟨⟩⟩)
    exact hline

theorem printed_printFrom {n i : ℕ} (h : printFrom s mark n i=some out) : ∀l∈out,Printed l := by
  induction n generalizing i out with
  | zero =>
    obtain rfl := Option.some.inj h
    simp
  | succ n ih =>
    simp only [printFrom,Option.bind_eq_bind,Option.bind_eq_some_iff,Option.pure_def,
      Option.some.injEq] at h
    obtain ⟨ls,hls,rest,hrest,rfl⟩ := h
    exact forall_mem_append.mpr ⟨printed_printLine hs hm hls,ih hrest⟩

theorem printed_printRange {i j : ℤ} (h : printRange s mark i j=some out) : ∀l∈out,Printed l := by
  unfold printRange at h
  split at h
  · obtain rfl := Option.some.inj h
    simp
  · split at h
    · simp at h
    · exact printed_printFrom hs hm h

end

theorem printed_eachHunk {ctx : ℤ} {n : ℕ} {hunk : Span→List DiffGroups.Group→Option (List Bytes)}
    (hh : ∀x gs out,hunk x gs=some out→∀l∈out,Printed l) {fuel : ℕ}
    {gs : List DiffGroups.Group} (h : eachHunk ctx n hunk fuel gs=some out) : ∀l∈out,Printed l := by
  induction fuel generalizing gs out with
  | zero =>
    cases gs with
    | nil =>
      obtain rfl := Option.some.inj h
      simp
    | cons g gs => simp [eachHunk] at h
  | succ fuel ih =>
    cases gs with
    | nil =>
      obtain rfl := Option.some.inj h
      simp
    | cons g gs =>
      simp only [eachHunk,Option.bind_eq_bind,Option.bind_eq_some_iff,Option.pure_def,
        Option.some.injEq] at h
      obtain ⟨out,hout,rest,hrest,rfl⟩ := h
      exact forall_mem_append.mpr ⟨hh _ _ _ hout,ih hrest⟩

end

theorem splitRawLines_printLines (h : ∀l∈ls,newline∉l) :
    splitRawLines (printLines ls)=ls.map (fun l => raw (trimCR l)) := by
  rw [splitRawLines,splitFileLines_printLines h,rawLines_false]

theorem map_raw_trimCR (h : ∀l∈ls,Printed l) : ls.map (fun l => raw (trimCR l))=ls.map raw :=
  map_congr_left (fun l hl => by rw [(h l hl).trimCR])

/-- The lines of a section: two headers that begin with fixed bytes, and the lines after them. -/
theorem splitRawLines_section {q x y : Bytes} (hp : Printed p) (hq : Printed q)
    (hx : newline∉x) (hy : newline∉y) (hls : ∀l∈ls,newline∉l) :
    splitRawLines (printLines ((p++x)::(q++y)::ls)) =
      raw (p++trimCR x)::raw (q++trimCR y)::ls.map (fun l => raw (trimCR l)) := by
  rw [splitRawLines_printLines,map_cons,map_cons,trimCR_append hp.noCR,trimCR_append hq.noCR]
  intro l hl
  simp only [mem_cons] at hl
  rcases hl with rfl | rfl | hl
  · rw [mem_append,not_or]
    exact ⟨hp.newline_notMem,hx⟩
  · rw [mem_append,not_or]
    exact ⟨hq.newline_notMem,hy⟩
  · exact hls l hl

end Coreutils.PatchHeaders
