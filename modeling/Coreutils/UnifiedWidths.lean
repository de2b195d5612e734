import Coreutils.UnifiedRoundTrip

/-!
# Context widths that overflow

From `2 ^ 62` on, twice the width is negative: no two groups share a hunk, and every hunk shows the
whole old file. The second such hunk overlaps the first, or `Parse` does not read its header. A
width whose sum with a line number overflows puts a negative count into the header.
-/

namespace Coreutils.UnifiedWidths
open List Coreutils.Alignment DiffGroups DiffOutput DiffSides GoText HunkEmission
open PatchParse PatchApply PatchExact PatchHeaders UnifiedRoundTrip WindowHunks

theorem wrap64_over {x : ℤ} (h₀ : 2^63≤x) (h₁ : x<2^64) : wrap64 x=x-2^64 := by
  simp only [wrap64]
  omega

variable {w idx fuel : ℕ} {i j n : ℤ} {sa sb : Side} {old ls out : List Bytes} {e : Bool}
  {st st' : State} {opts : ApplyOptions} {hs : List Hunk} {lead : List Line}
  {cs : List (Chunk Line)}

/-- No group is merged into the hunk of the one before. -/
theorem takeHunk_wide {α : Type*} (hw : 2^62≤w) (hmax : w<2^63) {i j : ℕ}
    {lead : List α} {c : Chunk α} {cs : List (Chunk α)} {g : Group} {gs : List Group}
    (hg : groupsOf i j lead (c::cs)=g::gs) : takeHunk w g gs=([g],gs) := by
  obtain ⟨rfl,rfl⟩ := hg
  cases cs with
  | nil => rfl
  | cons c' cs =>
    have hneg : wrap64 (2*w)<0 := by
      rw [wrap64_over (by omega) (by omega)]
      omega
    rw [groupsOf,takeHunk,if_neg]
    push_cast
    omega

section
variable {n : ℕ} {g : Group}

theorem hunkSpan_wide (hw : 2^62≤w) (ha : g.a0≤g.a1) (hn : g.a1≤n) (hmax : n<2^62)
    (hb : g.b0≤g.b1) (hb' : g.b1<2^62) (hfit : g.a1+w<2^63) :
    hunkSpan w n g g=⟨0,n,(g.b0 : ℤ)-g.a0,(g.b1 : ℤ)+(n-g.a1)⟩ := by
  have hs : (if wrap64 (g.a0-w)<0 then 0 else wrap64 (g.a0-w))=0 := by
    rw [wrap64_of_range (x := g.a0-w) (by omega) (by omega),if_pos (by omega)]
  have he : (if wrap64 (g.a1+w)>n then (n : ℤ) else wrap64 (g.a1+w))=n := by
    rw [wrap64_of_range (x := g.a1+w) (by omega) (by omega),if_pos (by omega)]
  have hbs : wrap64 (g.b0-wrap64 (g.a0-0))=(g.b0 : ℤ)-g.a0 := by
    rw [wrap64_of_range (x := g.a0-0) (by omega) (by omega),
      wrap64_of_range (by omega) (by omega),sub_zero]
  have hbe : wrap64 (g.b1+wrap64 (n-g.a1))=(g.b1 : ℤ)+(n-g.a1) := by
    rw [wrap64_of_range (x := (n : ℤ)-g.a1) (by omega) (by omega),
      wrap64_of_range (by omega) (by omega)]
  simp only [hunkSpan,hs,he,hbs,hbe]

/-- A sum that overflows ends the span before it begins. -/
theorem hunkSpan_over (hmax : w<2^63) (ha : g.a0≤g.a1) (hn : g.a1<2^62) (hover : 2^63≤g.a1+w) :
    (hunkSpan w n g g).hs=0 ∧ -2^63≤(hunkSpan w n g g).he ∧ (hunkSpan w n g g).he<0 := by
  have hs : (if wrap64 (g.a0-w)<0 then 0 else wrap64 (g.a0-w))=0 := by
    rw [wrap64_of_range (by omega) (by omega),if_pos (by omega)]
  have he : (if wrap64 (g.a1+w)>n then (n : ℤ) else wrap64 (g.a1+w))=g.a1+w-2^64 := by
    rw [wrap64_over (by omega) (by omega),if_neg (by omega)]
  simp only [hunkSpan]
  omega

end

theorem unifiedHunk?_negative_count (hn : n<0) (j m : ℤ) :
    unifiedHunk? (unifiedHeader 0 n j m)=none := by
  have hrange : ∀s,range? (unifiedRange 0 n++s) =
      some ((digits 1,[]),ascii "," ++ (itoa n++s)) := by
    intro s
    have hone : itoa (wrap64 (0+1))=digits 1 := rfl
    have hitoa : itoa n=45::digits n.natAbs := by rw [itoa,if_pos hn]
    rw [unifiedRange,if_neg (by omega),if_neg (by omega),hone,append_assoc,
      append_assoc,range?,hitoa]
    rfl
  simp only [unifiedHunk?,unifiedHeader,append_assoc,lit?_append,hrange,
    Option.bind_eq_bind,Option.bind_some]
  rfl

theorem unifiedHunks_malformed (nm : Bytes) (fuel : ℕ) {m : ℤ}
    (h : unifiedHunk? (unifiedHeader i n j m)=none) (rest : List RawLine) :
    unifiedHunks nm (fuel+1) (raw (unifiedHeader i n j m)::rest) =
      .error (.malformedUnified (unifiedHeader i n j m)) := by
  have hstart : startsWith (ascii "@@ ") (unifiedHeader i n j m)=true := rfl
  simp [unifiedHunks,raw,hstart,h]

theorem unifiedHunk?_negative_start {n m : ℕ} (hi : 0 ≤ i) (hi' : i+1<2^63)
    (hn : (n : ℤ)<2^63) (hj : j+1<0) (hj' : -2^63≤j+1) (hm : m≠0) :
    unifiedHunk? (unifiedHeader i n j m)=none := by
  obtain ⟨old,hold,-⟩ := range?_unifiedRange hi' hn (.inl hi)
    (s := ascii " +" ++ (unifiedRange j m++ascii " @@"))
    (endsRange_cons (by decide) (by decide) _)
  have hnew : ∃t,unifiedRange j m=45::t := by
    have hitoa : itoa (wrap64 (j+1))=45::digits (j+1).natAbs := by
      rw [wrap64_of_range hj' (by omega),itoa,if_pos hj]
    unfold unifiedRange
    rw [hitoa]
    split
    · exact ⟨_,rfl⟩
    · rw [if_neg (by omega)]
      exact ⟨_,rfl⟩
  obtain ⟨t,ht⟩ := hnew
  simp only [unifiedHunk?,unifiedHeader,append_assoc,lit?_append,hold,
    Option.bind_eq_bind,Option.bind_some]
  rw [ht]
  rfl

def wholeHunk (L D I K : List Line) (j : ℤ) : Hunk where
  oldStart := 0
  oldCount := (L++(D++K)).length
  newStart := j
  newCount := (L++(I++K)).length
  lines := hunkBody L [⟨D,I,K⟩]

theorem unifiedHunk_whole {L D K M I N : List Line} (ha : markedLines sa.lines sa.noEOL=L++(D++K))
    (hb : markedLines sb.lines sb.noEOL=M++(I++N)) (hna : sa.lines.length<2^62)
    (hnb : sb.lines.length<2^62) : unifiedHunk sa sb ⟨0,sa.lines.length,(M.length : ℤ)-L.length,
        (M.length+I.length : ℕ)+(sa.lines.length-(L.length+D.length : ℕ))⟩
      [⟨L.length,L.length+D.length,M.length,M.length+I.length⟩] =
    some (unifiedHeader 0 (L++(D++K)).length (M.length-L.length) (L++(I++K)).length ::
      (wholeHunk L D I K (M.length-L.length)).lines.flatMap shownLine) := by
  have hlena := congrArg length ha
  have hlenb := congrArg length hb
  simp only [length_markedLines,length_append] at hlena hlenb
  have hcommon : printRange sa (ascii " ") 0 (L.length : ℤ)=_ :=
    printRange_block (P := []) _ (by simpa using ha) (by simp) (by simp)
  have hdel : printRange sa (ascii "-") (L.length : ℤ) ((L.length+D.length : ℕ) : ℤ)=_ :=
    printRange_block _ ha rfl (by simp)
  have hins : printRange sb (ascii "+") (M.length : ℤ) ((M.length+I.length : ℕ) : ℤ)=_ :=
    printRange_block _ hb rfl (by simp)
  have htail : printRange sa (ascii " ") ((L.length+D.length : ℕ) : ℤ) (sa.lines.length : ℤ)=_ :=
    printRange_block (P := L++D) (S := []) _ (by simpa using ha) (by simp)
      (by rw [hlena]; simp; omega)
  have hbi : (M.length : ℤ)-L.length+(L.length-0)=M.length := by ring
  have hmax₁ : max (0 : ℤ) L.length=L.length := max_eq_right (by omega)
  have hmax₂ : max (L.length : ℤ) ((L.length+D.length : ℕ) : ℤ)=((L.length+D.length : ℕ) : ℤ) :=
    max_eq_right (by omega)
  have hold : wrap64 ((sa.lines.length : ℤ)-0)=((L++(D++K)).length : ℕ) := by
    rw [sub_zero,wrap64_of_range (by omega) (by omega),hlena]
    simp
  have hnew : wrap64 ((((M.length+I.length : ℕ) : ℤ)+(sa.lines.length-(L.length+D.length : ℕ))) -
      ((M.length : ℤ)-L.length))=((L++(I++K)).length : ℕ) := by
    rw [wrap64_of_range (by omega) (by omega),hlena]
    simp only [length_append]
    push_cast
    ring
  simp only [unifiedHunk,unifiedGroups,hmax₁,hbi,hcommon,hdel,hins,hmax₂,htail,
    Option.bind_eq_bind,Option.bind_some,Option.pure_def,hold,hnew]
  simp [unifiedHeader,wholeHunk,hunkBody,flatMap_shownLine,markOf]

/-- Copying lines adds them to the output. -/
theorem appendVerbatim_effect (h : appendVerbatim old e i j st=some st') :
    st'.rejects=st.rejects ∧ ∃ls,st'.out=st.out++ls ∧ (ls.length : ℤ)=max 0 (j-i) := by
  unfold appendVerbatim at h
  split at h
  · rw [←Option.some.inj h]
    exact ⟨rfl,[],by simp,by simp; omega⟩
  simp only [Option.bind_eq_bind,Option.bind_eq_some_iff,Option.pure_def,Option.some.injEq] at h
  obtain ⟨ls,hls,rfl⟩ := h
  refine ⟨rfl,ls,rfl,?_⟩
  rw [slice?] at hls
  split at hls
  · rw [←Option.some.inj hls]
    simp
    omega
  · cases hls

/-- A hunk is rejected, or its new side is found and copied, or it is replaced. -/
inductive HunkEffect (old : List Bytes) (e : Bool) (opts : ApplyOptions) (h : Hunk)
    (st st' : State) : Prop
  | reject (hrej : st'.rejects=st.rejects++[h]) (hout : st.out.length ≤ st'.out.length)
  | already {expected m f : ℤ} {st₁ st₂ : State} (hrej : st'.rejects=st.rejects)
      (hloc : locateHunk old h expected opts=some (m,f,.hunkAlreadyApplied))
      (hout : st.out.length ≤ st₁.out.length)
      (hcopy : appendVerbatim old e m (wrap64 (m+h.newCount)) st₁=some st₂)
      (hout' : st'.out=st₂.out)
  | replace {m : ℤ} {st₁ : State} {r : Replacement} (hrej : st'.rejects=st.rejects)
      (hout : st.out.length ≤ st₁.out.length)
      (hrepl : buildReplacement old m h.lines e=some r) (hout' : st'.out=st₁.out++r.repl)

theorem applyHunk_effect {h : Hunk} (hrun : applyHunk old e opts idx h st=some st') :
    HunkEffect old e opts h st st' := by
  have hcopy : ∀{i j : ℤ} {st₁ st₂ : State},appendVerbatim old e i j st₁=some st₂→
      st₂.rejects=st₁.rejects ∧ st₁.out.length ≤ st₂.out.length := by
    intro i j st₁ st₂ h
    obtain ⟨hrej,ls,hout,-⟩ := appendVerbatim_effect h
    exact ⟨hrej,by simp [hout]⟩
  unfold applyHunk at hrun
  simp only [Option.bind_eq_bind,Option.bind_eq_some_iff,Prod.exists] at hrun
  obtain ⟨start,peel,outcome,hloc,hrun⟩ := hrun
  cases outcome <;> simp only at hrun
  case hunkFailed =>
    simp only [Option.bind_eq_some_iff,Option.pure_def,Option.some.injEq] at hrun
    obtain ⟨st₁,h₁,st₂,h₂,rfl⟩ := hrun
    exact .reject (by simp [State.reject,(hcopy h₁).1,(hcopy h₂).1])
      ((hcopy h₁).2.trans (hcopy h₂).2)
  case hunkAlreadyApplied =>
    split at hrun
    · rw [←Option.some.inj hrun]
      exact .reject rfl (le_refl _)
    · simp only [Option.bind_eq_some_iff,Option.pure_def,Option.some.injEq] at hrun
      obtain ⟨st₁,h₁,st₂,h₂,rfl⟩ := hrun
      exact .already ((hcopy h₂).1.trans (hcopy h₁).1) hloc (hcopy h₁).2 h₂ rfl
  all_goals
    split at hrun
    · simp only [Option.bind_eq_some_iff,Option.pure_def,Option.some.injEq] at hrun
      obtain ⟨st₁,h₁,rfl⟩ := hrun
      exact .reject (by simp [State.reject,(hcopy h₁).1]) (hcopy h₁).2
    · simp only [Option.bind_eq_some_iff,Option.pure_def,Option.some.injEq] at hrun
      obtain ⟨st₁,h₁,r,hr,rfl⟩ := hrun
      exact .replace (hcopy h₁).1 (hcopy h₁).2 hr rfl

theorem applyHunk_rejects {h : Hunk} (hrun : applyHunk old e opts idx h st=some st') :
    st.rejects ⊆ st'.rejects := by
  cases applyHunk_effect hrun with
  | reject hrej _ =>
    rw [hrej]
    exact subset_append_left _ _
  | already hrej _ _ _ _ | replace hrej _ _ _ => rw [hrej]; exact List.Subset.refl _

theorem applyHunks_rejects (hrun : applyHunks old e opts idx hs st=some st') :
    st.rejects ⊆ st'.rejects := by
  induction hs generalizing idx st with
  | nil =>
    rw [←Option.some.inj hrun]
    exact List.Subset.refl _
  | cons h hs ih =>
    simp only [applyHunks,Option.bind_eq_bind,Option.bind_eq_some_iff] at hrun
    obtain ⟨st₁,h₁,hrun⟩ := hrun
    exact List.Subset.trans (applyHunk_rejects h₁) (ih hrun)

/-- A hunk that states the whole old file. -/
structure States (old : List Bytes) (h : Hunk) : Prop where
  start : h.oldStart=0
  count : h.oldCount=old.length
  lines : oldSeq h.lines=old

/-- The second of two such hunks is rejected. -/
theorem apply_whole_twice (hne : old≠[]) (hlen : old.length<2^62) {h₁ h₂ : Hunk}
    (hw₁ : States old h₁) (hw₂ : States old h₂) {r : Result}
    (hrun : apply old e (h₁::h₂::hs) {}=some r) : h₂∈r.rejects := by
  obtain ⟨hs₁,hc₁,hl₁⟩ := hw₁
  obtain ⟨hs₂,hc₂,hl₂⟩ := hw₂
  have hfit : ∀h : Hunk,oldSeq h.lines=old→
      old=([] : List Bytes)++([]++(oldSeq h.lines++[])) := by
    intro h hl
    simp [hl]
  have hstart₁ : h₁.oldStart=(([] : List Bytes).length+([] : List Bytes).length : ℕ) := by
    simp [hs₁]
  have hinit : ({ finalNoEOL := e } : State).cur=(([] : List Bytes).length : ℤ) := rfl
  obtain ⟨st₁,hst₁,-,hcur,hoff,-,-,-⟩ := applyHunk_exact e {} 0 (by exact_mod_cast hlen)
    (hfit h₁ hl₁) hstart₁ (by rw [hc₁,hl₁]) hinit rfl
  simp only [apply,orient,Bool.false_eq_true,if_false,Option.bind_eq_bind,
    Option.bind_eq_some_iff,Option.pure_def,Option.some.injEq,applyHunks] at hrun
  obtain ⟨st,⟨st₁',h₁',st₂,hst₂,hrest⟩,st',happ,rfl⟩ := hrun
  obtain rfl : st₁=st₁' := Option.some.inj (hst₁.symm.trans h₁')
  simp only [(appendVerbatim_effect happ).1]
  refine applyHunks_rejects hrest ?_
  have hloc := locateHunk_exact {} (hfit h₂ hl₂)
    (by rw [hc₂,hl₂]) (by exact_mod_cast hlen)
  have hexp : wrap64 (h₂.oldStart+st₁.offset)=(([] : List Bytes).length : ℤ) := by
    rw [hs₂,hoff]
    rfl
  have hpos := length_pos_iff.mpr hne
  unfold applyHunk at hst₂
  simp only [hexp,hloc,Option.bind_eq_bind,Option.bind_some] at hst₂
  rw [if_pos (by rw [hcur,hl₁]; simp only [length_nil]; push_cast; omega)] at hst₂
  simp only [Option.bind_eq_some_iff,Option.pure_def,Option.some.injEq] at hst₂
  obtain ⟨st₃,-,rfl⟩ := hst₂
  simp [State.reject]

/-- The hunk that is printed for a group, when the width is at least `2 ^ 62`. -/
theorem eachHunk_wide (hw : 2^62≤w) (hmax : w<2^63) {i j : ℕ} {c : Chunk Line}
    (h : eachHunk w sa.lines.length (unifiedHunk sa sb) fuel (groupsOf i j lead (c::cs))=some ls) :
    ∃g out rest fuel',g=⟨i+lead.length,i+lead.length+c.del.length,j+lead.length,
        j+lead.length+c.ins.length⟩ ∧
      unifiedHunk sa sb (hunkSpan w sa.lines.length g g) [g]=some out ∧
      eachHunk w sa.lines.length (unifiedHunk sa sb) fuel'
        (groupsOf (i+lead.length+c.del.length) (j+lead.length+c.ins.length) c.keep cs) = some rest ∧
      ls=out++rest := by
  cases fuel with
  | zero => simp [groupsOf,eachHunk] at h
  | succ fuel =>
    have htake := @takeHunk_wide _ _ hw hmax i j lead c cs _ _ rfl
    rw [groupsOf] at h
    simp only [eachHunk,htake,Option.bind_eq_bind,
      Option.bind_eq_some_iff,Option.pure_def,Option.some.injEq] at h
    obtain ⟨out,hout,rest,hrest,rfl⟩ := h
    exact ⟨_,out,rest,fuel,rfl,hout,hrest,rfl⟩

theorem unifiedHunk_cons {x : Span} {gs : List Group} (h : unifiedHunk sa sb x gs=some out) :
    ∃body,out=unifiedHeader x.hs (wrap64 (x.he-x.hs)) x.hbs (wrap64 (x.hbe-x.hbs))::body := by
  simp only [unifiedHunk,Option.bind_eq_bind,Option.bind_eq_some_iff,Option.pure_def,
    Option.some.injEq] at h
  obtain ⟨body,ai,-,tail,-,rfl⟩ := h
  exact ⟨_,rfl⟩

theorem eachHunk_head {ctx : ℤ} {n : ℕ} {gs : List Group}
    (h : eachHunk ctx n (unifiedHunk sa sb) fuel gs=some ls) :
    ∀l∈(ls.map raw).head?,l.text.head?≠some 92 := by
  cases gs with
  | nil =>
    obtain rfl : []=ls := by cases fuel <;> simpa [eachHunk] using h
    simp
  | cons g gs =>
    cases fuel with
    | zero => simp [eachHunk] at h
    | succ fuel =>
      simp only [eachHunk,Option.bind_eq_bind,Option.bind_eq_some_iff,Option.pure_def,
        Option.some.injEq] at h
      obtain ⟨out,hout,rest,-,rfl⟩ := h
      obtain ⟨body,rfl⟩ := unifiedHunk_cons hout
      simp only [cons_append,map_cons,head?_cons,Option.mem_some_iff]
      rintro l rfl
      exact header_head _ _ _ _

/-- If `Parse` gets past such a hunk, it has read a hunk that states the whole old file. -/
theorem unifiedHunks_wide (hw : 2^62≤w) (hmax : w<2^63)
    (hna : sa.lines.length<2^62) (hnb : sb.lines.length<2^62) {P Q : List Line} {c : Chunk Line}
    (ha : markedLines sa.lines sa.noEOL=P++oldSide lead (c::cs))
    (hb : markedLines sb.lines sb.noEOL=Q++newSide lead (c::cs))
    (hlead : P=[] ∨ lead≠[]) {g : Group}
    (hg : g=⟨P.length+lead.length,P.length+lead.length+c.del.length,
      Q.length+lead.length,Q.length+lead.length+c.ins.length⟩)
    {rest : List Bytes} (hout : unifiedHunk sa sb (hunkSpan w sa.lines.length g g) [g]=some out)
    (hrest : ∀l∈(rest.map raw).head?,l.text.head?≠some 92) {nm : Bytes}
    (hfuel : (out++rest).length≤fuel) {left : List RawLine}
    (hrun : unifiedHunks nm fuel ((out++rest).map raw)=.ok (hs,left)) :
    g.a1+w<2^63 ∧ ∃h hs' fuel',hs=h::hs' ∧ rest.length≤fuel' ∧
      unifiedHunks nm fuel' (rest.map raw)=.ok (hs',left) ∧ States sa.lines h := by
  obtain ⟨body,hbody⟩ := unifiedHunk_cons hout
  obtain ⟨fuel,rfl⟩ : ∃f,fuel=f+1 := ⟨fuel-1,by simp [hbody] at hfuel; omega⟩
  have hlena := congrArg length ha
  have hlenb := congrArg length hb
  rw [oldSide_cons] at ha hlena
  rw [newSide_cons] at hb hlenb
  simp only [length_markedLines,length_append] at hlena hlenb
  have ha1 : g.a1 ≤ sa.lines.length := by
    rw [hg]
    simp only
    omega
  have ha0 : g.a0≤g.a1 := by rw [hg]; simp
  have hfit : g.a1+w<2^63 := by
    by_contra hover
    obtain ⟨hs0,hlo,hhi⟩ := hunkSpan_over hmax ha0 (by omega)
      (by omega)
    have hnone := unifiedHunk?_negative_count hhi (hunkSpan w sa.lines.length g g).hbs
      (wrap64 ((hunkSpan w sa.lines.length g g).hbe-(hunkSpan w sa.lines.length g g).hbs))
    rw [hbody,cons_append,map_cons,hs0,sub_zero,wrap64_of_range hlo (lt_trans hhi (by norm_num)),
      unifiedHunks_malformed nm fuel hnone] at hrun
    simp at hrun
  have hwhole := unifiedHunk_whole (L := P++lead)
    (M := Q++lead) (N := newSide c.keep cs) (by simpa using ha) (by simpa using hb)
    hna hnb
  have hg' : g=⟨(P++lead).length,(P++lead).length+c.del.length,(Q++lead).length,
      (Q++lead).length+c.ins.length⟩ := by
    simp [hg]
  rw [hunkSpan_wide hw ha0 ha1 hna (by rw [hg]; simp)
    (by clear*- hg hlenb hnb; rw [hg]; simp only; omega) hfit,hg',hwhole] at hout
  obtain rfl := Option.some.inj hout
  refine ⟨hfit,?_⟩
  have hj : ((Q++lead).length : ℤ)-(P++lead).length=(Q.length : ℤ)-P.length := by
    simp only [length_append]
    push_cast
    ring
  have hcount : ((P++lead++(c.del++oldSide c.keep cs)).length : ℤ)=sa.lines.length := by
    rw [hlena]
    simp
  rw [hj] at hrun hfuel
  rw [cons_append,map_cons,map_append] at hrun
  -- the new range may start below zero, which is not read either
  have hstart : 0≤(Q.length : ℤ)-P.length+1 := by
    by_contra hneg
    have hne : lead≠[] := hlead.resolve_left (by rintro rfl; simp at hneg; omega)
    rw [unifiedHunks_malformed nm fuel (unifiedHunk?_negative_start (by omega) (by omega)
      (by omega) (by omega) (by omega) (by simp [hne]))] at hrun
    simp at hrun
  obtain ⟨old,new,hheader,hsold,hsnew⟩ := unifiedHunk?_header (i := 0)
    (n := (P++lead++(c.del++oldSide c.keep cs)).length) (j := (Q.length : ℤ)-P.length)
    (m := (P++lead++(c.ins++oldSide c.keep cs)).length) (by omega) (by omega) (by omega)
    (by
      rcases hlead with rfl | hne
      · exact .inl (by simp)
      · exact .inr ⟨hstart,by simp [hne]⟩) (by omega)
    (by
      simp only [length_append]
      omega)
  have hstep := unifiedHunks_hunk nm fuel (h := wholeHunk (P++lead) c.del c.ins
    (oldSide c.keep cs) (Q.length-P.length)) rfl hheader hsold hsnew
    (by simp [wholeHunk,oldSeq_hunkBody,oldSide_cons])
    (by simp [wholeHunk,newSeq_hunkBody,newSide_cons]) hrest
  rw [hstep] at hrun
  cases hmore : unifiedHunks nm fuel (rest.map raw) with
  | error e => simp [hmore] at hrun
  | ok p =>
    obtain ⟨hs',left'⟩ := p
    rw [hmore] at hrun
    obtain ⟨rfl,rfl⟩ := Prod.mk.inj (Except.ok.inj hrun)
    refine ⟨_,hs',fuel,rfl,?_,hmore,⟨rfl,hcount,?_⟩⟩
    · simp only [length_append,length_cons] at hfuel
      omega
    · rw [wholeHunk,oldSeq_hunkBody,←markedLines_map_text sa.lines sa.noEOL,ha]
      simp [oldSide_cons]

/-- With a width that does not fit, a patch that `Parse` reads states the old file twice. -/
theorem hunks_of_wide {a b : File} (ha : a.text.NoCR) (hb : b.text.NoCR) (hmax : w<2^63)
    {gs : List Group} (hcmp : compare a b { context := w }=some (sa,sb,gs))
    (hwide : ¬ WidthFits w gs) {data : Bytes} {fp : FilePatch}
    (hdata : unifiedPatch a b w=some data) (hparse : parse data=.ok [fp]) :
    a.text.lines≠[] ∧ ∃h₁ h₂ hs,fp.hunks=h₁::h₂::hs ∧ States a.text.lines h₁ ∧
      States a.text.lines h₂ := by
  rw [WidthFits,not_or,not_lt] at hwide
  obtain ⟨hw,hwide⟩ := hwide
  have hw' : 2^62≤w := by exact_mod_cast hw
  obtain ⟨lead,cs,hal⟩ := compare_aligned hcmp rfl rfl rfl
  have hna : sa.lines.length<2^62 := by exact_mod_cast hal.lines_old
  have hnb : sb.lines.length<2^62 := by exact_mod_cast hal.lines_new
  obtain ⟨ls,hemit⟩ :
      ∃ls,eachHunk w sa.lines.length (unifiedHunk sa sb) gs.length gs=some ls := by
    simp only [unifiedPatch,hcmp,emitUnified,Option.bind_eq_bind,Option.bind_some,
      Option.bind_eq_some_iff] at hdata
    obtain ⟨out,⟨ls,hls,-⟩,-⟩ := hdata
    exact ⟨ls,hls⟩
  obtain ⟨data',fp',hdata',hparse'⟩ := parse_unifiedPatch ha hb hcmp hal hemit
  obtain rfl : data=data' := Option.some.inj (hdata.symm.trans hdata')
  rw [hparse] at hparse'
  obtain ⟨hs,left,hhunks,hfp⟩ : ∃hs left,
      unifiedHunks fp'.newName ls.length (ls.map raw)=.ok (hs,left) ∧ fp.hunks=hs := by
    cases hrun : unifiedHunks fp'.newName ls.length (ls.map raw) with
    | error e => simp [hrun] at hparse'
    | ok p =>
      obtain ⟨hs,left⟩ := p
      rw [hrun,ok_bind] at hparse'
      cases hmore : parseSections (ls.length+1) left with
      | error e => simp [hmore] at hparse'
      | ok files =>
        simp only [hmore] at hparse'
        have hfp := (cons.inj (Except.ok.inj hparse')).1
        exact ⟨hs,left,rfl,by rw [hfp]⟩
  have hmarka := hal.marked_old
  have hmarkb := hal.marked_new
  rw [←hal.sideOld.lines,hfp]
  rw [hal.groups] at hemit hwide
  cases cs with
  | nil => simp [groupsOf] at hwide
  | cons c cs =>
    -- the first hunk states the whole file
    obtain ⟨g,out,rest,fuel,hg,hout,hrest,rfl⟩ := eachHunk_wide hw' hmax hemit
    obtain ⟨hfit,h₁,hs₁,fuel₁,rfl,hfuel₁,hrun₁,hwhole₁⟩ :=
      unifiedHunks_wide hw' hmax hna hnb (Q := []) hmarka hmarkb (.inl rfl)
        (by simpa using hg) hout (eachHunk_head hrest) (le_refl _) hhunks
    cases cs with
    | nil =>
      refine absurd ⟨by simp,?_⟩ hwide
      intro g' hg'
      obtain rfl : g'=g := by simpa [groupsOf,hg] using hg'
      exact_mod_cast hfit
    | cons c' cs =>
      -- so does the second
      have hkeep := hal.proper.keep_ne_nil
      obtain ⟨g',out',rest',fuel',hg',hout',hrest',rfl⟩ := eachHunk_wide hw' hmax hrest
      rw [oldSide_cons,←append_assoc] at hmarka
      rw [newSide_cons,←append_assoc] at hmarkb
      obtain ⟨-,h₂,hs₂,fuel₂,rfl,-,-,hwhole₂⟩ :=
        unifiedHunks_wide hw' hmax hna hnb hmarka hmarkb (.inr hkeep) (by simpa using hg')
          hout' (eachHunk_head hrest') hfuel₁ hrun₁
      refine ⟨fun hnil => ?_,h₁,h₂,hs₂,rfl,hwhole₁,hwhole₂⟩
      rw [hnil,oldSide_cons] at hmarka
      simp [markedLines,hkeep] at hmarka

/-- A width that does not fit loses the round trip: the second hunk starts behind the cursor. -/
theorem widthFits_of_unifiedRestores {a b : File} (ha : a.text.NoCR) (hb : b.text.NoCR)
    (hmax : w<2^63) {gs : List Group}
    (hcmp : compare a b { context := w }=some (sa,sb,gs)) (h : UnifiedRestores a b w) :
    WidthFits w gs := by
  by_contra hwide
  obtain ⟨data,fp,hdata,hparse,happly⟩ := h
  obtain ⟨hne,h₁,h₂,hs,hfp,hwhole₁,hwhole₂⟩ := hunks_of_wide ha hb hmax hcmp hwide hdata hparse
  rw [hfp] at happly
  have := apply_whole_twice hne a.text.length_lines hwhole₁ hwhole₂ happly
  simp at this

/-- The round trip through the unified format succeeds exactly for widths that do not overflow. -/
theorem unifiedRestores_iff (a b : File) (ha : a.text.NoCR) (hb : b.text.NoCR) {n : ℤ}
    (h₀ : 0≤n) (hn : n ≤ maxInt) : UnifiedRestores a b n ↔
      ∃sa sb gs,compare a b { context := n }=some (sa,sb,gs) ∧ WidthFits n gs := by
  obtain ⟨w,rfl⟩ := Int.eq_ofNat_of_zero_le h₀
  have hmax : (w : ℤ)<2^63 := by
    rw [maxInt] at hn
    omega
  constructor
  · intro h
    obtain ⟨sa,sb,lead,cs,hcmp,-⟩ := @compare_spec { context := w } a b rfl rfl rfl
    exact ⟨sa,sb,_,hcmp,widthFits_of_unifiedRestores ha hb (by exact_mod_cast hmax) hcmp h⟩
  · rintro ⟨sa,sb,gs,hcmp,hw⟩
    exact unifiedRestores_of_fits ha hb hmax hcmp hw

def threeLines : File where
  text := ⟨ascii "a\nb\nc\n",by decide,by decide⟩
  name := ascii "old"
  stamp := ascii "then"
  name_line := by decide
  stamp_line := by decide

def twoChanged : File where
  text := ⟨ascii "x\nb\ny\n",by decide,by decide⟩
  name := ascii "new"
  stamp := ascii "now"
  name_line := by decide
  stamp_line := by decide

theorem unifiedRestores_three : UnifiedRestores threeLines twoChanged 3 :=
  (unifiedRestores_iff threeLines twoChanged (by unfold Text.NoCR; decide)
    (by unfold Text.NoCR; decide) (n := 3) (by decide) (by decide)).mpr
    ⟨_,_,_,rfl,.inl (by decide)⟩

/-- With the width `2 ^ 62` the second hunk is rejected. -/
theorem not_unifiedRestores_wide : ¬ UnifiedRestores threeLines twoChanged (2^62) := by
  rintro ⟨data,fp,hdata,hparse,happly⟩
  have hrejects : ((unifiedPatch threeLines twoChanged (2^62)).bind fun data =>
      (parse data).toOption.bind fun files => files.head?.bind fun fp =>
        apply threeLines.text.lines threeLines.text.noEOL fp.hunks {}).map
          (fun r => r.rejects.length)=some 1 := by
    decide
  simp only [hdata,Option.bind_some,hparse,Except.toOption,head?_cons,happly] at hrejects
  simp at hrejects

end Coreutils.UnifiedWidths
