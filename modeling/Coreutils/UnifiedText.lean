import Coreutils.PatchEffects
import Coreutils.UnifiedRoundTrip

/-!
# The text of unified hunks

A section printed from hunks is read back with the same places, counts, marks and endings, but
without a carriage return at the end of a line: the reader takes it off every line of the patch.
-/

namespace Coreutils.UnifiedText
open List DiffOutput GoText HunkEmission PatchParse PatchApply PatchEffects PatchHeaders
  PatchPlacement
open UnifiedRoundTrip

def hunkText (h : Hunk) : List Bytes :=
  unifiedHeader h.oldStart h.oldCount h.newStart h.newCount::h.lines.flatMap shownLine

def sectionText (x y : Bytes) (hs : List Hunk) : Bytes :=
  printLines ((ascii "--- " ++ x)::(ascii "+++ " ++ y)::hs.flatMap hunkText)

/-- A hunk that can be printed: it is counted, with line numbers as places and lines as lines. -/
structure Printable (h : Hunk) : Prop where
  counted : Counted h
  oldStart : 0≤h.oldStart ∧ h.oldStart+1<2^63
  newStart : 0≤h.newStart ∧ h.newStart+1<2^63
  lines : ∀l∈h.lines,newline∉l.text

def trimLine (l : HunkLine) : HunkLine := { l with text := trimCR l.text }

def trimHunk (h : Hunk) : Hunk := { h with lines := h.lines.map trimLine }

theorem length_oldSeq_trim (ls : List HunkLine) :
    (oldSeq (ls.map trimLine)).length=(oldSeq ls).length := by
  simp [oldSeq,filter_map,Function.comp_def,trimLine]

theorem length_newSeq_trim (ls : List HunkLine) :
    (newSeq (ls.map trimLine)).length=(newSeq ls).length := by
  simp [newSeq,filter_map,Function.comp_def,trimLine]

theorem trimCR_shownLine (l : HunkLine) : (shownLine l).map trimCR=shownLine (trimLine l) := by
  obtain ⟨kind,text,noEOL⟩ := l
  have hmark : (markOf kind).getLast?≠some carriageReturn := by cases kind <;> decide
  have hline : trimCR (markOf kind++text)=markOf kind++trimCR text := trimCR_append hmark text
  have hmarker : trimCR noNewline=noNewline := printed_noNewline.trimCR
  cases noEOL <;> simp [shownLine,shown,trimLine,hline,hmarker]

theorem trimCR_hunkText (h : Hunk) : (hunkText h).map trimCR=hunkText (trimHunk h) := by
  simp [hunkText,trimHunk,(printed_unifiedHeader _ _ _ _).trimCR,map_flatMap,trimCR_shownLine,
    flatMap_map]

theorem newline_notMem_hunkText {h : Hunk} (hp : Printable h) : ∀l∈hunkText h,newline∉l := by
  intro l hl
  rw [hunkText,mem_cons,mem_flatMap] at hl
  rcases hl with rfl | ⟨k,hk,hl⟩
  · exact (printed_unifiedHeader _ _ _ _).newline_notMem
  have hline : newline∉markOf k.kind++k.text := by
    rw [mem_append,not_or]
    exact ⟨by cases k.kind <;> decide,hp.lines k hk⟩
  simp only [shownLine,shown] at hl
  split at hl
  · rcases mem_pair.mp hl with rfl | rfl
    · exact hline
    · exact printed_noNewline.newline_notMem
  · rw [mem_singleton.mp hl]
    exact hline

theorem hunkText_head (hs : List Hunk) :
    ∀l∈((hs.flatMap hunkText).map raw).head?,l.text.head?≠some 92 := by
  cases hs with
  | nil => simp
  | cons h hs =>
    intro l hl
    simp only [hunkText,flatMap_cons,cons_append,map_cons,head?_cons,Option.mem_some_iff] at hl
    subst hl
    exact header_head _ _ _ _

variable {hs : List Hunk}

/-- The reader takes the trimmed hunks. -/
theorem unifiedHunks_trim (nm : Bytes) (hp : ∀h∈hs,Printable h) {fuel : ℕ}
    (hfuel : hs.length≤fuel) : unifiedHunks nm fuel (((hs.map trimHunk).flatMap hunkText).map raw) =
      .ok (hs.map trimHunk,[]) := by
  induction hs generalizing fuel with
  | nil => cases fuel <;> rfl
  | cons h hs ih =>
    cases fuel with
    | zero => simp at hfuel
    | succ fuel =>
      have hrun := ih (fun h hh => hp h (by simp [hh])) (by simpa using hfuel)
      have hh := hp h (by simp)
      have hsmall := hh.counted.small
      have hold := length_oldSeq_le h.lines
      have hnew : (newSeq h.lines).length≤h.lines.length := by
        rw [newSeq,length_map]
        exact length_filter_le ..
      obtain ⟨old,new,hheader,hsold,hsnew⟩ := unifiedHunk?_header
        (n := (oldSeq h.lines).length) (m := (newSeq h.lines).length) hh.oldStart.1 hh.oldStart.2
        (by omega) (.inl hh.newStart.1) hh.newStart.2 (by omega)
      rw [←hh.counted.old,←hh.counted.new] at hheader
      have hstep := unifiedHunks_hunk nm fuel (h := trimHunk h) rfl hheader
        (hsold.trans (by rw [←hh.counted.old]; rfl)) (hsnew.trans (by rw [←hh.counted.new]; rfl))
        (by rw [trimHunk,length_oldSeq_trim]; exact hh.counted.old)
        (by rw [trimHunk,length_newSeq_trim]; exact hh.counted.new)
        (hunkText_head (hs.map trimHunk))
      rw [map_cons,flatMap_cons,map_append]
      exact hstep.trans (by rw [hrun]; rfl)

/-- `Parse` reads a printed section with every line trimmed. -/
theorem parse_sectionText {x y : Bytes} (hx : newline∉x) (hy : newline∉y) (hp : ∀h∈hs,Printable h) :
    ∃fp,parse (sectionText x y hs)=.ok [fp] ∧ fp.hunks=hs.map trimHunk := by
  have hlines : ∀l∈hs.flatMap hunkText,newline∉l := by
    intro l hl
    obtain ⟨h,hh,hl⟩ := mem_flatMap.mp hl
    exact newline_notMem_hunkText (hp h hh) l hl
  obtain ⟨fp,hparse⟩ := parse_unified hx hy hlines
  have htrim : (hs.flatMap hunkText).map (fun l => raw (trimCR l)) =
      ((hs.map trimHunk).flatMap hunkText).map raw := by
    have hcomp : (fun l => raw (trimCR l))=raw ∘ trimCR := rfl
    rw [hcomp,←map_map,map_flatMap,flatMap_map]
    simp [trimCR_hunkText]
  have hfuel : hs.length≤(hs.flatMap hunkText).length := by
    clear hp hlines hparse htrim
    induction hs with
    | nil => simp
    | cons h hs ih =>
      simp only [flatMap_cons,hunkText,length_append,length_cons]
      omega
  rw [htrim,unifiedHunks_trim fp.newName hp hfuel] at hparse
  exact ⟨_,hparse,rfl⟩

theorem trimCR_eq_self_iff {s : Bytes} : trimCR s=s ↔ s.getLast?≠some carriageReturn := by
  rw [trimCR]
  split_ifs with h
  · have hne : s≠[] := by
      rintro rfl
      cases h
    refine ⟨fun heq => ?_,fun hn => absurd h hn⟩
    have hlen := congrArg length heq
    rw [length_dropLast] at hlen
    have hpos := length_pos_iff.mpr hne
    omega
  · simp [h]

theorem map_eq_self_iff {α : Type} {f : α→α} {l : List α} : l.map f=l ↔ ∀x∈l,f x=x := by
  have h : l.map f=l.map id ↔ ∀x∈l,f x=id x := map_inj_left
  rwa [map_id] at h

theorem trimHunk_eq_self_iff {h : Hunk} :
    trimHunk h=h ↔ ∀l∈h.lines,l.text.getLast?≠some carriageReturn := by
  have hline : ∀l : HunkLine,trimLine l=l ↔ l.text.getLast?≠some carriageReturn := by
    rintro ⟨kind,text,noEOL⟩
    simp [trimLine,←trimCR_eq_self_iff]
  obtain ⟨oldStart,oldCount,newStart,newCount,lines⟩ := h
  simp [trimHunk,map_eq_self_iff,hline]

/-- The patch is read as one section, and its hunks are the ones it was printed from. -/
def TextPreserved (x y : Bytes) (hs : List Hunk) : Prop :=
  ∃fp,parse (sectionText x y hs)=.ok [fp] ∧ fp.hunks=hs

/-- Printed hunks are read back exactly when no line of theirs ends in a carriage return. -/
theorem textPreserved_iff {x y : Bytes} (hx : newline∉x) (hy : newline∉y)
    (hp : ∀h∈hs,Printable h) : TextPreserved x y hs ↔
      ∀h∈hs,∀l∈h.lines,l.text.getLast?≠some carriageReturn := by
  obtain ⟨fp,hparse,hhunks⟩ := parse_sectionText hx hy hp
  have hread : TextPreserved x y hs ↔ hs.map trimHunk=hs := by
    constructor
    · rintro ⟨fp',hparse',hhunks'⟩
      rw [hparse,Except.ok.injEq,cons.injEq] at hparse'
      rw [←hhunks,hparse'.1,hhunks']
    · exact fun heq => ⟨fp,hparse,hhunks.trans heq⟩
  rw [hread,map_eq_self_iff]
  exact forall₂_congr fun h hh => trimHunk_eq_self_iff

def oneLine (ending : Bytes) : Hunk where
  oldStart := 0
  oldCount := 1
  newStart := 0
  newCount := 1
  lines := [⟨.lineDelete,ascii "a" ++ ending,false⟩,⟨.lineAdd,ascii "b" ++ ending,false⟩]

theorem textPreserved_oneLine : TextPreserved (ascii "f") (ascii "f") [oneLine []] := by
  have hprintable : Printable (oneLine []) :=
    ⟨⟨by decide,by decide,by decide⟩,by decide,by decide,by decide⟩
  exact (textPreserved_iff (by decide) (by decide) (by simpa using hprintable)).mpr (by decide)

/-- With carriage returns at the ends of its lines the patch is read without them, and then rejected
by the file it was made for. -/
theorem not_textPreserved_oneLine : ¬ TextPreserved (ascii "f") (ascii "f") [oneLine (ascii "\r")] ∧
      ∃fp r,parse (sectionText (ascii "f") (ascii "f") [oneLine (ascii "\r")])=.ok [fp] ∧
        apply [ascii "a\r"] false fp.hunks {}=some r ∧ r.rejects=fp.hunks ∧
        r.lines=[ascii "a\r"] := by
  have hparse : parse (sectionText (ascii "f") (ascii "f") [oneLine (ascii "\r")]) =
      .ok [{ oldName := ascii "f",newName := ascii "f",hunks := [oneLine []] }] := by decide
  refine ⟨?_,_,_,hparse,rfl,rfl,rfl⟩
  rintro ⟨fp,hfp,hhunks⟩
  rw [hparse,Except.ok.injEq,cons.injEq] at hfp
  rw [←hfp.1] at hhunks
  revert hhunks
  decide

end Coreutils.UnifiedText
