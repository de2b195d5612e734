import Coreutils.CutLines

/-!
# Bytes without splitting characters

`cut -b -n`: two searches in the spans of the line move each range of bytes to the boundaries of
characters. Ranges that lie apart print every character whose last byte they select, once.
-/

namespace Coreutils.CutWhole
open List CutLines GoText Selections

structure ByteSpan where
  start : ℕ
  stop : ℕ
  deriving DecidableEq,Repr

/-- The spans of characters that follow `k` bytes. -/
def spansFrom : ℕ→List Bytes→List ByteSpan
  | _,[] => []
  | k,ch::chars => ⟨k,k+ch.length⟩::spansFrom (k+ch.length) chars

/-- The ends of the spans increase, so that `sort.Search` finds the first one after `idx`. -/
def spanContaining (spans : List ByteSpan) (idx : ℕ) : Option ℕ :=
  let i := spans.findIdx (idx<·.stop)
  match spans[i]? with
  | some s => if s.start ≤ idx then some i else none
  | none => none

/-- The last boundary up to `hi`; a character that goes on after it is left out. -/
def endBoundary (spans : List ByteSpan) (hi : ℕ) : Option ℕ := do
  let hiSpan ← spanContaining spans (hi-1)
  let last ← spans[hiSpan]?
  if hi-1≠last.stop-1 then
    if hiSpan=0 then none else (spans[hiSpan-1]?).map ByteSpan.stop
  else some last.stop

/-- `adjustNoSplitRange`; no span contains a negative index. -/
def adjustNoSplitRange (spans : List ByteSpan) (lineLen : ℕ) (p : Range) : Option (ℕ×ℕ) :=
  if lineLen=0 ∨ lineLen<p.lo then none
  else
    let hi := min p.hi lineLen
    if hi<p.lo ∨ hi=0 then none
    else do
      let loSpan ← spanContaining spans (p.lo-1)
      let first ← spans[loSpan]?
      let hi ← endBoundary spans hi
      if hi≤first.start then none else some (first.start,hi)

def noSplitPieces (chars : List Bytes) (line : Bytes) (pairs : List Range) : List Bytes :=
  pairs.filterMap fun p =>
    (adjustNoSplitRange (spansFrom 0 chars) line.length p).map fun r => (line.take r.2).drop r.1

def emitBytesNoSplit (c : Cutter) (line : Bytes) (hadNL : Bool) : Bytes :=
  (if c.hasOutDelim then c.outDelim else []).intercalate
      (noSplitPieces (utf8Spans line.length line) line c.pairs)++
    if hadNL then [c.lineTerm] else []

def wholeFrom (S : ℕ→Prop) [DecidablePred S] : ℕ→List Bytes→List Bytes
  | _,[] => []
  | k,ch::chars =>
    if S (k+ch.length) then ch::wholeFrom S (k+ch.length) chars else wholeFrom S (k+ch.length) chars

section
variable {S T : ℕ→Prop} [DecidablePred S] [DecidablePred T] {k : ℕ} {chars : List Bytes}

theorem wholeFrom_none (h : ∀i,k ≤ i→i≤k+chars.flatten.length→¬S i) : wholeFrom S k chars=[] := by
  induction chars generalizing k with
  | nil => rfl
  | cons ch chars ih =>
    rw [flatten_cons,length_append] at h
    rw [wholeFrom,if_neg (h _ (by omega) (by omega)),ih fun i hi hle => h i (by omega) (by omega)]

theorem wholeFrom_congr (h : ∀i,S i ↔ T i) : wholeFrom S k chars=wholeFrom T k chars := by
  induction chars generalizing k with
  | nil => rfl
  | cons ch chars ih => simp [wholeFrom,ih,h]

/-- Positions that come before other positions select before them. -/
theorem wholeFrom_or (h : ∀i j,S i→T j→i<j) :
    wholeFrom (fun i => S i ∨ T i) k chars=wholeFrom S k chars++wholeFrom T k chars := by
  induction chars generalizing k with
  | nil => rfl
  | cons ch chars ih =>
    simp only [wholeFrom,ih]
    by_cases hT : T (k+ch.length)
    · have hS : ∀i,k+ch.length ≤ i→¬S i := fun i hi hSi => by
        have := h i _ hSi hT
        omega
      rw [if_pos (.inr hT),if_neg (hS _ le_rfl),if_pos hT,wholeFrom_none fun i hi _ => hS i hi]
      rfl
    · by_cases hS : S (k+ch.length) <;> simp [hS,hT]

end

/-- The characters that end before a range, in it, and after it; `k` bytes come before them. -/
structure Split (p : Range) (k : ℕ) (A B C : List Bytes) : Prop where
  before : A=[] ∨ k+A.flatten.length<p.lo
  within : B=[] ∨ k+A.flatten.length+B.flatten.length≤p.hi
  reaches : ∀ch∈(B++C).head?,p.lo≤k+A.flatten.length+ch.length
  after : ∀ch∈C.head?,p.hi<k+A.flatten.length+B.flatten.length+ch.length

theorem exists_split (p : Range) (k : ℕ) (chars : List Bytes) :
    ∃A B C,chars=A++(B++C) ∧ wholeFrom (fun i => p.lo ≤ i ∧ i≤p.hi) k chars=B ∧
      Split p k A B C := by
  induction chars generalizing k with
  | nil => exact ⟨[],[],[],rfl,rfl,by simp,by simp,by simp,by simp⟩
  | cons ch chars ih =>
    obtain ⟨A,B,C,rfl,hB,h⟩ := ih (k+ch.length)
    rcases lt_or_ge (k+ch.length) p.lo with hlo | hlo
    · refine ⟨ch::A,B,C,rfl,by rw [wholeFrom,if_neg (by omega),hB],?_⟩
      refine ⟨.inr ?_,?_,?_,?_⟩ <;> simp only [flatten_cons,length_append,←add_assoc]
      · rcases h.before with rfl | hbefore
        · simpa using hlo
        · exact hbefore
      · exact h.within
      · exact h.reaches
      · exact h.after
    rcases lt_or_ge p.hi (k+ch.length) with hhi | hhi
    · refine ⟨[],[],_,rfl,?_,by simp,by simp,by simpa using hlo,by simpa using hhi⟩
      rw [wholeFrom,if_neg (by omega),wholeFrom_none fun i hi _ => by omega]
    obtain rfl := h.before.resolve_right (by omega)
    refine ⟨[],ch::B,C,rfl,?_,by simp,.inr ?_,by simpa using hlo,?_⟩
    · rw [wholeFrom,if_pos ⟨hlo,hhi⟩,hB]
    · rcases h.within with rfl | h₂
      · simpa using hhi
      · simpa [add_assoc] using h₂
    · simpa [add_assoc] using h.after

theorem spansFrom_append (k : ℕ) (X Y : List Bytes) :
    spansFrom k (X++Y)=spansFrom k X++spansFrom (k+X.flatten.length) Y := by
  induction X generalizing k with
  | nil => rfl
  | cons ch X ih => simp [spansFrom,ih,add_assoc]

theorem length_spansFrom (k : ℕ) (X : List Bytes) : (spansFrom k X).length=X.length := by
  induction X generalizing k with
  | nil => rfl
  | cons ch X ih => simp [spansFrom,ih]

variable {k hi fuel : ℕ} {X Y chars A B C : List Bytes} {ch line : Bytes} {p : Range}

theorem stop_le {s : ByteSpan} (h : s∈spansFrom k X) : s.stop≤k+X.flatten.length := by
  induction X generalizing k with
  | nil => cases h
  | cons ch X ih =>
    rw [flatten_cons,length_append]
    rcases mem_cons.mp h with rfl | h
    · simp only
      omega
    · have := ih h
      omega

theorem spansFrom_getElem (X : List Bytes) (ch : Bytes) (Y : List Bytes) :
    (spansFrom 0 (X++ch::Y))[X.length]? = some ⟨X.flatten.length,X.flatten.length+ch.length⟩ := by
  rw [spansFrom_append,getElem?_append_right (by rw [length_spansFrom]),length_spansFrom]
  simp [spansFrom]

theorem spanContaining_eq {idx : ℕ} (h₀ : X.flatten.length ≤ idx)
    (h₁ : idx<X.flatten.length+ch.length) :
    spanContaining (spansFrom 0 (X++ch::Y)) idx=some X.length := by
  have hidx : (spansFrom 0 (X++ch::Y)).findIdx (idx<·.stop)=X.length := by
    have hX : (spansFrom 0 X).findIdx (idx<·.stop)=(spansFrom 0 X).length := by
      refine findIdx_eq_length.mpr fun s hs => ?_
      have := stop_le hs
      simp only [decide_eq_false_iff_not]
      omega
    rw [spansFrom_append,findIdx_append,hX,if_neg (lt_irrefl _),length_spansFrom]
    simp only [spansFrom,findIdx_cons,zero_add,h₁,decide_true,cond_true]
  simp only [spanContaining,hidx,spansFrom_getElem]
  exact if_pos h₀

theorem endBoundary_of_eq (hch : ch≠[]) :
    endBoundary (spansFrom 0 (X++ch::Y)) (X.flatten.length+ch.length) =
      some (X.flatten.length+ch.length) := by
  have := length_pos_iff.mpr hch
  rw [endBoundary,spanContaining_eq (by omega) (by omega)]
  simp [spansFrom_getElem]

theorem endBoundary_of_lt (h₀ : X.flatten.length<hi)
    (h₁ : hi<X.flatten.length+ch.length) : endBoundary (spansFrom 0 (X++ch::Y)) hi =
      if X=[] then none else some X.flatten.length := by
  rw [endBoundary,spanContaining_eq (by omega) (by omega)]
  simp only [Option.bind_eq_bind,Option.bind_some,spansFrom_getElem]
  rw [if_pos (by omega)]
  rcases eq_nil_or_concat' X with rfl | ⟨X,d,rfl⟩
  · rfl
  · have := spansFrom_getElem X d (ch::Y)
    simp [this]

/-- The end of a range moves back to the end of the characters that end in it. -/
theorem endBoundary_split (h : Split p 0 A B C) (hB : ∀ch∈B,ch≠[])
    (hmin : hi=min p.hi (A++(B++C)).flatten.length) (hA : A.flatten.length<hi) :
    endBoundary (spansFrom 0 (A++(B++C))) hi =
      if A++B=[] then none else some (A++B).flatten.length := by
  have hlast : B=[] ∨ (A++B).flatten.length≤p.hi := by simpa using h.within
  have hafter := h.after
  simp only [flatten_append,length_append] at hmin hlast hafter
  by_cases hend : (A++B).flatten.length=hi
  · -- a character ends with the range
    rcases eq_nil_or_concat' B with rfl | ⟨B,b,rfl⟩
    · simp only [append_nil] at hend
      omega
    have hsplit : A++(B++[b]++C)=A++B++b::C := by simp
    have hsize : hi=(A++B).flatten.length+b.length := by simp [←hend,add_assoc]
    rw [hsplit,hsize,endBoundary_of_eq (hB b (by simp))]
    simp [add_assoc]
  · rw [flatten_append,length_append] at hend
    have hlt : (A++B).flatten.length<hi := by
      rw [flatten_append,length_append]
      rcases hlast with rfl | hlast
      · simpa using hA
      · omega
    cases C with
    | nil =>
      simp only [flatten_nil,length_nil] at hmin
      rw [flatten_append,length_append] at hlt
      omega
    | cons c C =>
      rw [←append_assoc]
      refine endBoundary_of_lt hlt ?_
      have := hafter c rfl
      rw [flatten_append,length_append]
      omega

theorem adjust_split (hlo : 0<p.lo) (hhi : p.lo≤p.hi) (h : Split p 0 A B C) (hB : ∀ch∈B,ch≠[])
    (hlen : p.lo≤(A++(B++C)).flatten.length) :
    adjustNoSplitRange (spansFrom 0 (A++(B++C))) (A++(B++C)).flatten.length p = if B=[] then none
      else some (A.flatten.length,A.flatten.length+B.flatten.length) := by
  have hA : A.flatten.length<p.lo := by
    rcases h.before with rfl | hA
    · simpa using hlo
    · simpa using hA
  obtain ⟨ch,Y,hY⟩ : ∃ch Y,B++C=ch::Y := by
    refine exists_cons_of_ne_nil fun hnil => ?_
    rw [hnil,append_nil] at hlen
    omega
  have hfirst : spanContaining (spansFrom 0 (A++(B++C))) (p.lo-1)=some A.length ∧
      (spansFrom 0 (A++(B++C)))[A.length]?=some ⟨A.flatten.length,A.flatten.length+ch.length⟩ := by
    have := h.reaches ch (by simp [hY])
    rw [hY]
    exact ⟨spanContaining_eq (by omega) (by omega),spansFrom_getElem A ch Y⟩
  rw [adjustNoSplitRange,if_neg (by omega)]
  rw [if_neg (by omega),endBoundary_split h hB rfl (by omega)]
  simp only [hfirst,Option.bind_eq_bind,Option.bind_some]
  rcases eq_or_ne B [] with rfl | hne
  · by_cases hnil : A=[] <;> simp
  obtain ⟨b,hb⟩ := exists_mem_of_ne_nil B hne
  have hpos : 0<B.flatten.length := by
    have := length_pos_iff.mpr (hB b hb)
    have := (sublist_flatten_of_mem hb).length_le
    omega
  rw [if_neg (by simp [hne]),if_neg hne,Option.bind_some,flatten_append,length_append,
    if_neg (by omega)]

theorem noSplitPiece_eq (hlo : 0<p.lo) (hhi : p.lo≤p.hi) (hne : ∀ch∈chars,ch≠[]) :
    (adjustNoSplitRange (spansFrom 0 chars) chars.flatten.length p).map
        (fun r => (chars.flatten.take r.2).drop r.1) =
      if wholeFrom (fun i => p.lo ≤ i ∧ i≤p.hi) 0 chars=[] then none
      else some (wholeFrom (fun i => p.lo ≤ i ∧ i≤p.hi) 0 chars).flatten := by
  rcases lt_or_ge chars.flatten.length p.lo with hlen | hlen
  · rw [adjustNoSplitRange,if_pos (.inr hlen),wholeFrom_none fun i _ hi => by omega]
    rfl
  obtain ⟨A,B,C,rfl,hB,h⟩ := exists_split p 0 chars
  rw [adjust_split hlo hhi h (fun ch hch => hne ch (by simp [hch])) hlen,hB]
  split
  · rfl
  · simp only [Option.map_some,flatten_append]
    rw [←append_assoc,←length_append,take_left,drop_left]

theorem noSplitPieces_eq {pairs : List Range} (h : Separated k pairs) (hk : 0<k)
    (hne : ∀ch∈chars,ch≠[]) : ∃groups : List (List Bytes),
      noSplitPieces chars chars.flatten pairs=groups.map flatten ∧
        groups.flatten=wholeFrom (Covers pairs) 0 chars := by
  induction pairs generalizing k with
  | nil => exact ⟨[],rfl,(wholeFrom_none fun i _ _ => not_covers_nil i).symm⟩
  | cons p ps ih =>
    obtain ⟨hlo,hhi⟩ := h.start p mem_cons_self
    obtain ⟨groups,hpieces,hgroups⟩ := ih h.tail (by omega)
    have hwhole : wholeFrom (Covers (p::ps)) 0 chars =
        wholeFrom (fun i => p.lo ≤ i ∧ i≤p.hi) 0 chars++wholeFrom (Covers ps) 0 chars := by
      rw [wholeFrom_congr fun i => covers_cons]
      refine wholeFrom_or fun i j hi hj => ?_
      by_contra hlt
      exact h.tail.not_covers (by omega) hj
    rw [noSplitPieces] at hpieces ⊢
    rw [hwhole,filterMap_cons,noSplitPiece_eq (by omega) hhi hne,hpieces,←hgroups]
    split
    · exact ⟨groups,rfl,by simp_all⟩
    rename_i piece hsome
    refine ⟨wholeFrom (fun i => p.lo ≤ i ∧ i≤p.hi) 0 chars::groups,?_,rfl⟩
    split at hsome
    · cases hsome
    · rw [←Option.some.inj hsome]
      rfl

theorem utf8Spans_ne_nil (h : ch∈utf8Spans fuel line) : ch≠[] := by
  induction fuel generalizing line with
  | zero => simp [utf8Spans] at h
  | succ fuel ih =>
    cases line with
    | nil => simp [utf8Spans] at h
    | cons b s =>
      rcases mem_cons.mp h with rfl | h
      · simp
      · exact ih h

theorem flatten_utf8Spans (h : line.length≤fuel) : (utf8Spans fuel line).flatten=line := by
  induction fuel generalizing line with
  | zero => simp [utf8Spans,length_eq_zero_iff.mp (Nat.le_zero.mp h)]
  | succ fuel ih =>
    cases line with
    | nil => simp [utf8Spans]
    | cons b s =>
      rw [utf8Spans,flatten_cons,ih (by simp at h ⊢; omega),take_append_drop]

theorem emitBytesNoSplit_whole (c : Cutter) (h : Separated 1 c.pairs) (line : Bytes)
    (hadNL : Bool) : ∃groups : List (List Bytes),
      groups.flatten=wholeFrom (Covers c.pairs) 0 (utf8Spans line.length line) ∧
        (utf8Spans line.length line).flatten=line ∧ emitBytesNoSplit c line hadNL =
          (if c.hasOutDelim then c.outDelim else []).intercalate (groups.map flatten)++
            if hadNL then [c.lineTerm] else [] := by
  have hline := flatten_utf8Spans (le_refl line.length)
  obtain ⟨groups,hpieces,hgroups⟩ := noSplitPieces_eq h (by omega) fun ch hch =>
    utf8Spans_ne_nil hch
  rw [hline] at hpieces
  refine ⟨groups,hgroups,hline,?_⟩
  rw [emitBytesNoSplit,hpieces]

/-- The first and the third byte of a line that starts with a character of two bytes. -/
def firstAndThird : Cutter := { pairs := [⟨1,1⟩,⟨3,3⟩] }

theorem emitBytesNoSplit_accent : ∃groups : List (List Bytes),
    groups.flatten=[[0x61]] ∧ emitBytesNoSplit firstAndThird [0xC3,0xA9,0x61] false =
      [].intercalate (groups.map flatten)++[] := by
  obtain ⟨groups,hgroups,-,hemit⟩ := emitBytesNoSplit_whole firstAndThird
    ⟨by decide,by decide⟩ [0xC3,0xA9,0x61] false
  exact ⟨groups,hgroups.trans (by decide),hemit⟩

end Coreutils.CutWhole
