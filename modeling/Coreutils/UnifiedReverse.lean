import Coreutils.PatchPlacement
import Coreutils.UnifiedWidths

/-!
# A unified diff applied in reverse

With `Reverse`, `Apply` exchanges the sides of every hunk line by line and in place, so added lines
can come before deleted ones. The reversed hunks say what the windows of the alignment say with its
sides exchanged, so they make the old file of the new one; the widths that overflow lose this round
trip too, since each of two hunks then brings back the whole old file.
-/

namespace Coreutils.UnifiedReverse
open List Coreutils.Alignment DiffGroups DiffSides GoText HunkEmission HunkWindows
open PatchParse PatchApply PatchExact PatchPlacement UnifiedRoundTrip UnifiedWidths WindowHunks

/-- The new side of a reversed hunk is the old side, with the endings of its lines. -/
theorem newLines_reverseHunk {h : Hunk} {lead : List Line} {cs : List (Chunk Line)}
    (hlines : h.lines=hunkBody lead cs) :
    (newLines (reverseHunk h).lines).map (fun l => (⟨l.text,l.noEOL⟩ : Line)) =
      oldSide lead cs := by
  simp only [reverseHunk,hlines]
  clear hlines h
  have hadd : (LineKind.lineAdd != .lineDelete)=true := rfl
  induction cs generalizing lead with
  | nil => simp [hunkBody,newLines,hunkLine,filter_map,Function.comp_def]
  | cons c cs ih =>
    simp only [hunkBody,map_append,newLines_append,ih,oldSide_cons]
    simp [newLines,hunkLine,filter_map,Function.comp_def,hadd]

/-- The reversed hunks say what the windows say with their sides exchanged. -/
theorem states_reverse (i j : ℕ) (xs : List (Window Line)) :
    States j (xs.map Window.flip) ((windowHunks i j xs).map reverseHunk) := by
  induction xs generalizing i j with
  | nil => exact States.nil j
  | cons x xs ih =>
    refine States.cons rfl ?_ ⟨?_,?_⟩ ?_
    · simp only [Window.flip,oldSide_flip]
      rfl
    · rw [(seq_reverseHunk _).1]
      simp [windowHunk,newSeq_hunkBody,Window.flip,oldSide_flip]
    · rw [newLines_reverseHunk rfl]
      simp [Window.flip,newSide_flip]
    · rw [Window.old_flip]
      exact ih _ _

/-- The patch is one section, whose hunks, in reverse, make the old file of the new. -/
def UnifiedReverts (a b : File) (n : ℤ) : Prop :=
  ∃data fp r,unifiedPatch a b n=some data ∧ parse data=.ok [fp] ∧
    apply b.text.lines b.text.noEOL fp.hunks { reverse := true }=some r ∧
    r.lines=a.text.lines ∧ r.noFinalNewline=a.text.noEOL ∧ r.rejects=[]

variable {w idx : ℕ} {gs : List Group} {oldLines old : List Bytes} {expected m : ℤ}
  {opts : ApplyOptions} {e : Bool} {st st' : State}

theorem unifiedReverts_of_fits {a b : File} (ha : a.text.NoCR) (hb : b.text.NoCR)
    (hmax : (w : ℤ)<2^63) {sa sb : Side}
    (hcmp : compare a b { context := w }=some (sa,sb,gs)) (hw : WidthFits w gs) :
    UnifiedReverts a b w := by
  obtain ⟨lead,cs,hal⟩ := compare_aligned hcmp rfl rfl rfl
  obtain ⟨data,fp,hdata,hparse,hhunks⟩ := parse_of_fits ha hb hmax hcmp hal hw
  have hstates : States 0 (windows w lead (cs.map Chunk.flip)).1
      (orient { reverse := true } fp.hunks) := by
    rw [windows_flip,hhunks]
    exact states_reverse 0 0 _
  have happly := apply_states (hal.new.trans (oldSide_flip lead cs).symm)
    (hal.old.trans (newSide_flip lead cs).symm) hal.proper.flip hstates
  exact ⟨data,fp,_,hdata,hparse,happly,rfl,rfl,rfl⟩

theorem fuzzLoop_outcome {h : Hunk} {fuel f : ℕ} {k : ℤ} {o : HunkOutcome}
    (hrun : fuzzLoop oldLines h expected opts fuel f=some (some (m,k,o))) :
    o≠.hunkAlreadyApplied := by
  induction fuel generalizing f with
  | zero => cases hrun
  | succ fuel ih =>
    rw [fuzzLoop] at hrun
    simp only at hrun
    split at hrun
    · obtain ⟨r,-,hrun⟩ := Option.bind_eq_some_iff.mp hrun
      cases r with
      | some pos =>
        cases hrun
        split <;> simp
      | none =>
        simp only at hrun
        split at hrun
        · cases hrun
        · exact ih hrun
    · cases hrun

/-- A hunk that counts as applied before has its new side inside the file. -/
theorem locateHunk_already {h : Hunk}
    {f : ℤ} (hloc : locateHunk oldLines h expected opts=some (m,f,.hunkAlreadyApplied)) :
    0 ≤ m ∧ m+(newSeq h.lines).length≤oldLines.length := by
  obtain ⟨r,hr,hloc⟩ := Option.bind_eq_some_iff.mp hloc
  cases r with
  | some t =>
    cases hloc
    exact absurd rfl (fuzzLoop_outcome hr)
  | none =>
    simp only at hloc
    split at hloc
    · obtain ⟨r,hsearch,hspec⟩ := searchWithin_spec oldLines (newSeq h.lines) expected 0
        (oldLines.length-(newSeq h.lines).length) opts.ignoreWhitespace
      rw [search,hsearch,Option.bind_eq_bind] at hloc
      cases r with
      | some pos =>
        cases hloc
        obtain ⟨hm,-,-,hfit,-⟩ := hspec _ rfl
        exact ⟨hm,hfit⟩
      | none => cases hloc
    · cases hloc

theorem length_replaceFrom {lines : List HunkLine} {ti : ℤ}
    {r r' : Replacement} (h : replaceFrom oldLines lines ti r=some r') :
    r'.repl.length=r.repl.length+(newSeq lines).length := by
  induction lines generalizing ti r with
  | nil =>
    rw [←Option.some.inj h]
    rfl
  | cons l lines ih =>
    obtain ⟨kind,text,noEOL⟩ := l
    cases kind with
    | lineContext =>
      obtain ⟨t,-,h⟩ := Option.bind_eq_some_iff.mp h
      rw [ih h]
      simp [newSeq]
      omega
    | lineDelete =>
      rw [ih h]
      simp [newSeq]
    | lineAdd =>
      rw [ih h]
      simp [newSeq]
      omega

theorem applyHunk_length_out {h : Hunk} (hrun : applyHunk old e opts idx h st=some st') :
    st.out.length ≤ st'.out.length := by
  cases applyHunk_effect hrun with
  | reject hrej hout => exact hout
  | already hrej hloc hout hcopy hout' =>
    obtain ⟨-,ls,hls,-⟩ := appendVerbatim_effect hcopy
    rw [hout',hls,length_append]
    omega
  | replace hrej hout hrepl hout' =>
    rw [hout',length_append]
    omega

/-- A hunk that is not rejected adds at least its new side to the output. -/
theorem applyHunk_grows {h : Hunk} (hn : old.length<2^62) (hc : h.newCount=(newSeq h.lines).length)
    (hrun : applyHunk old e opts idx h st=some st') (hrej : st'.rejects=[]) :
    st.out.length+(newSeq h.lines).length ≤ st'.out.length := by
  cases applyHunk_effect hrun with
  | reject hrej' hout => simp [hrej'] at hrej
  | @already expected m f st₁ st₂ hrej' hloc hout hcopy hout' =>
    obtain ⟨hm,hfit⟩ := locateHunk_already hloc
    obtain ⟨-,ls,hls,hlen⟩ := appendVerbatim_effect hcopy
    rw [wrap64_of_range (by omega) (by omega)] at hlen
    rw [hout',hls,length_append]
    omega
  | replace hrej' hout hrepl hout' =>
    rw [hout',length_append,length_replaceFrom hrepl]
    omega

theorem applyHunks_length_out {hs : List Hunk} (hrun : applyHunks old e opts idx hs st=some st') :
    st.out.length ≤ st'.out.length := by
  induction hs generalizing idx st with
  | nil => rw [←Option.some.inj hrun]
  | cons h hs ih =>
    obtain ⟨st₁,h₁,hrun⟩ := Option.bind_eq_some_iff.mp hrun
    exact (applyHunk_length_out h₁).trans (ih hrun)

/-- Two hunks that are both not rejected leave both their new sides in the output. -/
theorem apply_twice_grows {hunks : List Hunk} {h₁ h₂ : Hunk} {hs : List Hunk} (hn : old.length<2^62)
    (horient : orient opts hunks=h₁::h₂::hs) (hc₁ : h₁.newCount=(newSeq h₁.lines).length)
    (hc₂ : h₂.newCount=(newSeq h₂.lines).length) {r : Result}
    (hrun : apply old e hunks opts=some r) (hrej : r.rejects=[]) :
    (newSeq h₁.lines).length+(newSeq h₂.lines).length≤r.lines.length := by
  rw [apply,horient] at hrun
  obtain ⟨st,hhunks,hrun⟩ := Option.bind_eq_some_iff.mp hrun
  obtain ⟨st',htail,hrun⟩ := Option.bind_eq_some_iff.mp hrun
  obtain ⟨st₁,hst₁,hhunks⟩ := Option.bind_eq_some_iff.mp hhunks
  obtain ⟨st₂,hst₂,hrest⟩ := Option.bind_eq_some_iff.mp hhunks
  cases hrun
  obtain ⟨hrej',ls,hls,-⟩ := appendVerbatim_effect htail
  have hnone : st.rejects=[] := hrej'.symm.trans hrej
  have hnone₂ : st₂.rejects=[] :=
    subset_nil.mp (hnone ▸ applyHunks_rejects hrest)
  have hnone₁ : st₁.rejects=[] := subset_nil.mp (hnone₂ ▸ applyHunk_rejects hst₂)
  have hgrow₁ := applyHunk_grows hn hc₁ hst₁ hnone₁
  have hgrow₂ := applyHunk_grows hn hc₂ hst₂ hnone₂
  have hgrow := applyHunks_length_out hrest
  simp only [hls,length_append] at hgrow₁ ⊢
  omega

/-- A width that does not fit loses the reverse round trip: the old file would come back twice. -/
theorem widthFits_of_unifiedReverts {a b : File} (ha : a.text.NoCR) (hb : b.text.NoCR)
    (hmax : w<2^63) {sa sb : Side}
    (hcmp : compare a b { context := w }=some (sa,sb,gs)) (h : UnifiedReverts a b w) :
    WidthFits w gs := by
  by_contra hwide
  obtain ⟨data,fp,r,hdata,hparse,happly,hlines,-,hrej⟩ := h
  obtain ⟨hne,h₁,h₂,hs,hfp,⟨-,hcount₁,hlines₁⟩,⟨-,hcount₂,hlines₂⟩⟩ :=
    hunks_of_wide ha hb hmax hcmp hwide hdata hparse
  have horient : orient { reverse := true } fp.hunks =
      reverseHunk h₁::reverseHunk h₂::hs.map reverseHunk := by
    rw [hfp]
    rfl
  have hgrow := apply_twice_grows b.text.length_lines horient
    (by rw [(seq_reverseHunk _).2,hlines₁]; exact hcount₁)
    (by rw [(seq_reverseHunk _).2,hlines₂]; exact hcount₂) happly hrej
  rw [(seq_reverseHunk _).2,(seq_reverseHunk _).2,hlines₁,hlines₂,hlines] at hgrow
  have hpos := length_pos_iff.mpr hne
  omega

/-- The diff, applied in reverse, makes the old file exactly for widths that do not overflow. -/
theorem unifiedReverts_iff (a b : File) (ha : a.text.NoCR) (hb : b.text.NoCR) {n : ℤ}
    (h₀ : 0≤n) (hn : n ≤ maxInt) : UnifiedReverts a b n ↔
      ∃sa sb gs,compare a b { context := n }=some (sa,sb,gs) ∧ WidthFits n gs := by
  obtain ⟨w,rfl⟩ := Int.eq_ofNat_of_zero_le h₀
  have hmax : (w : ℤ)<2^63 := by
    rw [maxInt] at hn
    omega
  constructor
  · intro h
    obtain ⟨sa,sb,lead,cs,hcmp,-⟩ := @compare_spec { context := w } a b rfl rfl rfl
    exact ⟨sa,sb,_,hcmp,widthFits_of_unifiedReverts ha hb (by exact_mod_cast hmax) hcmp h⟩
  · rintro ⟨sa,sb,gs,hcmp,hw⟩
    exact unifiedReverts_of_fits ha hb hmax hcmp hw

theorem unifiedReverts_three : UnifiedReverts threeLines twoChanged 3 :=
  (unifiedReverts_iff threeLines twoChanged (by unfold Text.NoCR; decide)
    (by unfold Text.NoCR; decide) (n := 3) (by decide) (by decide)).mpr
    ⟨_,_,_,rfl,.inl (by decide)⟩

/-- With the width `2 ^ 62` the first hunk shows a line that the new file does not have. -/
theorem not_unifiedReverts_wide : ¬ UnifiedReverts threeLines twoChanged (2^62) := by
  rintro ⟨data,fp,r,hdata,hparse,happly,-,-,hrej⟩
  have hrejects : ((unifiedPatch threeLines twoChanged (2^62)).bind fun data =>
      (parse data).toOption.bind fun files => files.head?.bind fun fp =>
        apply twoChanged.text.lines twoChanged.text.noEOL fp.hunks { reverse := true }).map
          (fun r => r.rejects.length)=some 2 := by
    decide
  simp only [hdata,Option.bind_some,hparse,Except.toOption,head?_cons,happly,
    Option.map_some,hrej] at hrejects
  simp at hrejects

end Coreutils.UnifiedReverse
