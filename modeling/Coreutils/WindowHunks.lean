import Coreutils.DiffSides
import Coreutils.HunkWindows
import Coreutils.PatchExact

/-!
# The hunks of windows

Whatever the format, a patch made from the windows of an alignment has one hunk for each. Such hunks
fit the old file, and `Apply` makes the new file of it, with the ending of its last line.
-/

namespace Coreutils.WindowHunks
open List Coreutils.Alignment DiffSides GoText HunkWindows PatchParse PatchApply PatchExact

def hunkLine (kind : LineKind) (l : Line) : HunkLine := ⟨kind,l.text,l.noEOL⟩

/-- The lines of a hunk: common, deleted and inserted blocks in order. -/
def hunkBody (lead : List Line) : List (Chunk Line)→List HunkLine
  | [] => lead.map (hunkLine .lineContext)
  | c::cs => lead.map (hunkLine .lineContext)++(c.del.map (hunkLine .lineDelete) ++
      (c.ins.map (hunkLine .lineAdd)++hunkBody c.keep cs))

@[simp] theorem oldSeq_hunkLine (kind : LineKind) (ls : List Line) :
    oldSeq (ls.map (hunkLine kind))=if kind=.lineAdd then [] else ls.map Line.text := by
  induction ls with
  | nil => simp [oldSeq]
  | cons l ls ih => cases kind <;> simp_all [oldSeq,hunkLine]

@[simp] theorem newLines_hunkLine (kind : LineKind) (ls : List Line) :
    newLines (ls.map (hunkLine kind))=if kind=.lineDelete then [] else ls.map (hunkLine kind) := by
  induction ls with
  | nil => simp [newLines]
  | cons l ls ih => cases kind <;> simp_all [newLines,hunkLine]

section
variable (lead : List Line) (cs : List (Chunk Line))
include lead cs

theorem oldSeq_hunkBody : oldSeq (hunkBody lead cs)=(oldSide lead cs).map Line.text := by
  induction cs generalizing lead with
  | nil => simp [hunkBody]
  | cons c cs ih => simp [hunkBody,ih,oldSide_cons]

/-- The new side of a hunk, with the endings of its lines. -/
theorem newLines_hunkBody :
    (newLines (hunkBody lead cs)).map (fun h => (⟨h.text,h.noEOL⟩ : Line))=newSide lead cs := by
  induction cs generalizing lead with
  | nil => simp [hunkBody,hunkLine,Function.comp_def]
  | cons c cs ih => simp [hunkBody,ih,newSide_cons,hunkLine,Function.comp_def]

theorem newSeq_hunkBody : newSeq (hunkBody lead cs)=(newSide lead cs).map Line.text := by
  rw [←newLines_hunkBody,map_map]
  rfl

end

/-- The hunks state the windows, one each, from line `i` of the old file on. Where a hunk starts in
the new file plays no part. -/
inductive Reads : ℕ→List (Window Line)→List Hunk→Prop
  | nil (i : ℕ) : Reads i [] []
  | cons {i : ℕ} {x : Window Line} {xs : List (Window Line)} {h : Hunk} {hs : List Hunk}
      (hstart : h.oldStart=(i+x.skip.length : ℕ))
      (hcount : h.oldCount=(oldSide x.lead x.chunks).length)
      (hlines : h.lines=hunkBody x.lead x.chunks) (hrest : Reads (i+x.old.length) xs hs) :
      Reads i (x::xs) (h::hs)

/-- The hunk says what the window says: its old side, and its new side with the endings. -/
structure StatesWindow (h : Hunk) (x : Window Line) : Prop where
  old : oldSeq h.lines=(oldSide x.lead x.chunks).map Line.text
  new : (newLines h.lines).map (fun l => (⟨l.text,l.noEOL⟩ : Line))=newSide x.lead x.chunks

theorem StatesWindow.newSeq {h : Hunk} {x : Window Line} (hx : StatesWindow h x) :
    newSeq h.lines=(newSide x.lead x.chunks).map Line.text := by
  rw [←hx.new,map_map]
  rfl

theorem StatesWindow.lastNoEOL {h : Hunk} {x : Window Line} (hx : StatesWindow h x) :
    lastNoEOL h.lines=(newSide x.lead x.chunks).getLast?.map Line.noEOL := by
  rw [←hx.new,getLast?_map,Option.map_map]
  rfl

/-- The hunks say what the windows say, from line `i` of the old file on, whatever the order of
deleted and added lines between two common ones. -/
inductive States : ℕ→List (Window Line)→List Hunk→Prop
  | nil (i : ℕ) : States i [] []
  | cons {i : ℕ} {x : Window Line} {xs : List (Window Line)} {h : Hunk} {hs : List Hunk}
      (hstart : h.oldStart=(i+x.skip.length : ℕ))
      (hcount : h.oldCount=(oldSide x.lead x.chunks).length) (hx : StatesWindow h x)
      (hrest : States (i+x.old.length) xs hs) : States i (x::xs) (h::hs)

variable {i w : ℕ} {xs : List (Window Line)} {hs : List Hunk} {lead : List Line} {a b : Text}
  {cs : List (Chunk Line)}

theorem Reads.states (h : Reads i xs hs) : States i xs hs := by
  induction h with
  | nil i => exact States.nil i
  | cons hstart hcount hlines hrest ih =>
    refine States.cons hstart hcount ⟨?_,?_⟩ ih
    · rw [hlines,oldSeq_hunkBody]
    · rw [hlines,newLines_hunkBody]

theorem States.fits (h : States i xs hs) (final : List Line) :
    Fits i ((xs.flatMap Window.old++final).map Line.text) hs
      ((xs.flatMap Window.new++final).map Line.text) (final.map Line.text) := by
  induction h with
  | nil i => exact Fits.nil i _
  | @cons i x xs h hs hstart hcount hx hrest ih =>
    have hold := hx.old
    have hnew := hx.newSeq
    have hlen : x.old.length=(x.skip.map Line.text).length+(oldSeq h.lines).length := by
      simp [Window.old,hold]
    rw [hlen] at ih
    have hfits := Fits.cons (by simpa using hstart) (by simpa [hold] using hcount) ih
    simpa [hold,hnew,Window.old,Window.new] using hfits

theorem States.getLast? (h : States i xs hs) :
    hs.getLast?.map (fun h => PatchExact.lastNoEOL h.lines) =
      xs.getLast?.map (fun x => (newSide x.lead x.chunks).getLast?.map Line.noEOL) := by
  induction h with
  | nil i => rfl
  | @cons i x xs h hs hstart hcount hx hrest ih =>
    have hlast := hx.lastNoEOL
    rw [getLast?_cons,getLast?_cons]
    cases hx : xs.getLast? <;> cases hh : hs.getLast? <;> simp_all

/-- When nothing replaces the last lines, the new text ends in an earlier common line. -/
theorem lastFlag_of_deleted {ls : List Bytes} {e : Bool}
    {init : List (Chunk Line)} {d : Chunk Line} (hp : Proper (init++[d]))
    (hA : markedLines ls e=oldSide lead (init++[d])) (hins : d.ins=[]) (hkeep : d.keep=[]) :
    lastFlag (newSide lead (init++[d]))=false := by
  have hdel : d.del≠[] := (hp.changes d (by simp)).resolve_right (by simp [hins])
  -- both sides end in the same common block before `d`
  have hends : ∀f : Chunk Line→List Line,∃U K,side f lead (init++[d])=U++(K++f d) ∧
      (K=[]→U=[]) ∧ K=(init.getLast?.map Chunk.keep).getD lead := by
    intro f
    rcases eq_nil_or_concat' init with rfl | ⟨init',c,rfl⟩
    · exact ⟨[],lead,by simp [side,hkeep],fun _ => rfl,rfl⟩
    · refine ⟨side f lead init'++f c,c.keep,by simp [side,hkeep],?_,by simp⟩
      intro hk
      exact absurd hk (hp.apart c (by simp))
  obtain ⟨U,K,hU,-,hK⟩ := hends Chunk.del
  obtain ⟨V,K',hV,hVnil,hK'⟩ := hends Chunk.ins
  obtain rfl : K=K' := hK.trans hK'.symm
  rw [newSide,hV,hins,append_nil]
  rcases eq_nil_or_concat' K with rfl | ⟨K,l,rfl⟩
  · simp [hVnil rfl,lastFlag]
  have hl : l.noEOL=false := by
    have hold : markedLines ls e=(U++K)++l::d.del := by
      rw [hA,oldSide,hU]
      simp
    exact noEOL_of_markedLines hold hdel
  simp [lastFlag,hl]

section
variable (ha : a.marked=oldSide lead cs) (hb : b.marked=newSide lead cs) (hp : Proper cs)
include ha hb hp

/-- The flag `Apply` computes is that of the new text. -/
theorem fitFlag_windows (hr : States 0 (windows w lead cs).1 hs) :
    fitFlag a.noEOL hs ((windows w lead cs).2.map Line.text)=b.noEOL := by
  have hold := windows_old w lead cs
  have hnew := windows_new w lead cs
  rw [a.noEOL_eq,b.noEOL_eq,ha,hb,fitFlag]
  by_cases hfinal : (windows w lead cs).2=[]
  · rw [if_pos (by simp [hfinal])]
    have hlast := hr.getLast?
    cases hx : (windows w lead cs).1.getLast? with
    | none =>
      have hnil : (windows w lead cs).1=[] := by simpa using hx
      have hhs : hs.getLast?=none := by simpa [hx] using hlast
      rw [hhs,hold,hnew,hnil]
      rfl
    | some x =>
      obtain ⟨h,hh⟩ : ∃h,hs.getLast?=some h := by
        cases hh : hs.getLast? with
        | none => simp [hx,hh] at hlast
        | some h => exact ⟨h,rfl⟩
      have hflag : PatchExact.lastNoEOL h.lines =
          (newSide x.lead x.chunks).getLast?.map Line.noEOL := by
        simpa [hx,hh] using hlast
      obtain ⟨ws,hws⟩ := getLast?_eq_some_iff.mp hx
      simp only [hh,hflag]
      rw [←lastFlag]
      by_cases hempty : newSide x.lead x.chunks=[]
      · -- the last chunk only deletes, and the last line of the new text comes before it
        obtain ⟨init,init',d,k,rfl,hxc,hk⟩ := windows_last hx
        have hdk : d.ins=[] ∧ k=[] := by
          have hside := hempty
          rw [hxc,newSide,side] at hside
          simp only [append_eq_nil_iff,flatMap_append,flatMap_singleton] at hside
          exact hside.2.2
        rw [hfinal,hdk.2] at hk
        rw [lastFlag_of_deleted hp (by rw [←ha,Text.marked]) hdk.1 hk,hempty]
        rfl
      · rw [hnew,hfinal,hws,append_nil,flatMap_append,flatMap_singleton,
          Window.new,←append_assoc,lastFlag_append hempty]
  · rw [if_neg (by simpa using hfinal),hold,hnew,lastFlag_append hfinal,lastFlag_append hfinal]

/-- `Apply` makes the new text of the old one from hunks that, in the orientation attempted, say
what the windows of an alignment say. -/
theorem apply_states {opts : ApplyOptions}
    (hr : States 0 (windows w lead cs).1 (orient opts hs)) : apply a.lines a.noEOL hs opts =
      some ⟨b.lines,b.noEOL,exactReports 0 (orient opts hs),[]⟩ := by
  have hfits := hr.fits (windows w lead cs).2
  rw [←windows_old,←windows_new,←ha,←hb] at hfits
  simp only [Text.marked,markedLines_map_text] at hfits
  rw [apply_fits a.noEOL hfits (by exact_mod_cast a.length_lines),fitFlag_windows ha hb hp hr]

theorem apply_reads (hr : Reads 0 (windows w lead cs).1 hs) :
    apply a.lines a.noEOL hs {}=some ⟨b.lines,b.noEOL,exactReports 0 hs,[]⟩ :=
  apply_states ha hb hp hr.states

end

end Coreutils.WindowHunks
