import Coreutils.CutLists

/-!
# The lines of cut

What the emitters print of a line, as items with their positions. Those that take one slice for each
range print a position again for every range left over after an open one; the emitter for delimited
fields walks along the line and does not.
-/

namespace Coreutils.CutLines
open List GoText Selections CutLists

/-- `splitWhitespace`, with the field read so far. -/
def splitWhitespace : Bytes→Bytes→List Bytes
  | field,[] => if field=[] then [] else [field]
  | field,b::s =>
    if isBlank b then
      if field=[] then splitWhitespace [] s else field::splitWhitespace [] s
    else splitWhitespace (field++[b]) s

/-- `utf8Spans`, each span as the bytes that it covers; the first argument is fuel. -/
def utf8Spans : ℕ→Bytes→List Bytes
  | 0,_ | _,[] => []
  | fuel+1,b::s =>
    let size := max (decodeRune (b::s)).2 1
    (b::s).take size::utf8Spans fuel ((b::s).drop size)

structure Cutter where
  pairs : List Range
  charMode : Bool := false
  fieldMode : Bool := false
  delim : Bytes := [9]
  delim_ne : delim≠[] := by decide
  onlyDelimited : Bool := false
  outDelim : Bytes := [9]
  lineTerm : UInt8 := newline
  whitespaceDelimited : Bool := false
  hasOutDelim : Bool := false

def Cutter.items (c : Cutter) (line : Bytes) : List Bytes :=
  if c.fieldMode then
    if c.whitespaceDelimited then splitWhitespace [] line else splitSeq c.delim 0 [] line
  else if c.charMode then utf8Spans line.length line
  else line.map fun b => [b]

/-- The search for the next delimiter until the field `lo`; nothing if the line ends before it. -/
def skipFields (lo : ℕ) : ℕ→List Bytes→Option (ℕ×List Bytes)
  | field,f::g::fs =>
    if field<lo then skipFields lo (field+1) (g::fs) else some (field,f::g::fs)
  | field,fs => if field<lo then none else some (field,fs)

/-- The loop over delimited fields, with fuel first. The fields are those from `start` on, so a
search for the delimiter fails at the last one. -/
def pickFields : ℕ→List Range→ℕ→List Bytes→List Bytes
  | 0,_,_,_ => []
  | fuel+1,pairs,field,fields =>
    match pairs.dropWhile (·.hi<field) with
    | [] => []
    | p::ps =>
      match skipFields p.lo field fields with
      | none => []
      | some (field,f::g::fs) => f::pickFields fuel (p::ps) (field+1) (g::fs)
      | some (_,fs) => fs

def Cutter.printed (c : Cutter) (line : Bytes) : List (List Bytes) :=
  if c.fieldMode && !c.whitespaceDelimited then
    [pickFields (c.items line).length c.pairs 1 (c.items line)]
  else slices (c.items line) c.pairs

def Cutter.hasDelim (c : Cutter) (line : Bytes) : Bool :=
  if c.whitespaceDelimited then line.any isBlank else line.tails.any (c.delim.isPrefixOf ·)

/-- The pieces with their delimiters: between fields always, between others only if given. -/
def Cutter.delimit (c : Cutter) (pieces : List (List Bytes)) : Bytes :=
  if c.fieldMode then c.outDelim.intercalate pieces.flatten
  else (if c.hasOutDelim then c.outDelim else []).intercalate (pieces.map flatten)

/-- `emitLine`. A line without a delimiter has no fields to select. -/
def Cutter.emitLine (c : Cutter) (line : Bytes) (hadNL : Bool) : Bytes :=
  let ending := if hadNL then [c.lineTerm] else []
  if c.fieldMode && !c.hasDelim line then
    if c.onlyDelimited then [] else line++ending
  else c.delimit (c.printed line)++ending

theorem covers_dropWhile {k i : ℕ} (hi : k ≤ i) (ps : List Range) :
    Covers (ps.dropWhile (·.hi<k)) i ↔ Covers ps i := by
  induction ps with
  | nil => exact Iff.rfl
  | cons p ps ih =>
    rw [dropWhile_cons]
    split_ifs with hlt
    · rw [ih,covers_cons,or_iff_right]
      have : p.hi<k := by simpa using hlt
      omega
    · exact Iff.rfl

variable {fields : List Bytes}

theorem skipFields_eq (lo field : ℕ) (h : fields≠[]) :
    skipFields lo field fields = if field+fields.length≤lo then none
      else some (max field lo,fields.drop (lo-field)) := by
  induction fields generalizing field with
  | nil => exact absurd rfl h
  | cons f fields ih =>
    cases fields with
    | nil =>
      rw [skipFields]
      · simp only [length_singleton]
        by_cases hlt : field<lo
        · rw [if_pos hlt,if_pos (by omega)]
        · rw [if_neg hlt,if_neg (by omega),Nat.sub_eq_zero_of_le (by omega),drop_zero,
            max_eq_left (by omega)]
      · simp
    | cons g fs =>
      rw [skipFields]
      by_cases hlt : field<lo
      · obtain ⟨d,rfl⟩ := Nat.exists_eq_add_of_lt hlt
        rw [if_pos hlt,ih (field+1) (by simp)]
        simp only [length_cons]
        have hdrop : field+d+1-(field+1)=d := by omega
        have hdrop' : field+d+1-field=d+1 := by omega
        rw [hdrop,hdrop',drop_succ_cons,max_eq_right (by omega),max_eq_right (by omega)]
        exact if_congr (by omega) rfl rfl
      · rw [if_neg hlt,if_neg (by simp; omega),Nat.sub_eq_zero_of_le (by omega),drop_zero,
          max_eq_left (by omega)]

/-- The walk along the fields prints what the ranges hold, however they overlap. -/
theorem pickFields_eq {ps : List Range} (hsorted : ps.Pairwise fun p q => p.lo≤q.lo)
    (hle : ∀p∈ps,p.lo≤p.hi) {fuel k : ℕ} (hne : fields≠[])
    (hfuel : fields.length≤fuel) : pickFields fuel ps k fields=selectFrom (Covers ps) k fields := by
  induction fuel generalizing ps k fields with
  | zero => exact absurd (length_eq_zero_iff.mp (by omega)) hne
  | succ fuel ih =>
    have hcongr : selectFrom (Covers ps) k fields =
        selectFrom (Covers (ps.dropWhile (·.hi<k))) k fields :=
      selectFrom_congr fun i hi _ => (covers_dropWhile hi ps).symm
    have hsub : (ps.dropWhile (·.hi<k)).Sublist ps := dropWhile_sublist _
    have hsorted' := hsorted.sublist hsub
    have hle' : ∀p∈ps.dropWhile (·.hi<k),p.lo≤p.hi := fun p hp => hle p (hsub.subset hp)
    rw [hcongr,pickFields]
    split
    · rename_i hnil
      rw [hnil,selectFrom_none fun i _ _ => not_covers_nil i]
    rename_i p qs hdrop
    rw [hdrop] at hsorted' hle' ⊢
    have hk : k≤p.hi := by
      have := head?_dropWhile_not (fun q : Range => decide (q.hi<k)) ps
      simpa [hdrop] using this
    have hlo : p.lo≤p.hi := hle' p mem_cons_self
    have hbefore : ∀i<p.lo,¬Covers (p::qs) i := by
      rintro i hi ⟨q,hq,hqi,-⟩
      rcases mem_cons.mp hq with rfl | hq
      · omega
      · have := rel_of_pairwise_cons hsorted' hq
        omega
    rw [skipFields_eq _ _ hne]
    by_cases hend : k+fields.length≤p.lo
    · rw [if_pos hend,selectFrom_none fun i _ hi => hbefore i (by omega)]
    rw [if_neg hend]
    -- the fields before the range, and the one that is printed
    have hskip : selectFrom (Covers (p::qs)) k fields =
        selectFrom (Covers (p::qs)) (max k p.lo) (fields.drop (p.lo-k)) := by
      nth_rewrite 1 [←take_append_drop (p.lo-k) fields]
      rw [selectFrom_append,selectFrom_none,nil_append,length_take]
      · congr 1
        omega
      · intro i hi hlt
        rw [length_take] at hlt
        exact hbefore i (by omega)
    rw [hskip]
    have hcovers : Covers (p::qs) (max k p.lo) := covers_cons.mpr (.inl (by omega))
    rcases hrest : fields.drop (p.lo-k) with _ | ⟨f,_ | ⟨g,fs⟩⟩
    · have := congrArg length hrest
      have := length_pos_iff.mpr hne
      simp only [length_drop,length_nil] at *
      omega
    · simp [selectFrom,hcovers]
    · have hlen := congrArg length hrest
      simp only [length_drop,length_cons] at hlen
      rw [selectFrom,if_pos hcovers,
        ← ih hsorted' hle' (by simp) (by simp only [length_cons]; omega)]

section
variable {pairs : List Range} (hvalid : ∀p∈pairs,Valid p)

include hvalid

/-- The slices print each position once, unless a range is left over within the line. -/
theorem slices_mergeRanges_iff {α : Type} {l : List α} (hlen : l.length≤unlimited) :
    (slices l (mergeRanges pairs)).flatten=selectFrom (Covers pairs) 1 l ↔
      ¬Doubled l.length pairs := by
  obtain ⟨front,tail,heq,hsep,hcovers,-,-,hleft⟩ := mergeRanges_spec hvalid
  obtain ⟨hsorted,hvalid',-⟩ := mergeRanges_sorted hvalid
  have hfront : (slices l front).flatten=selectFrom (Covers pairs) 1 l := by
    rw [flatten_slices hsep]
    exact selectFrom_congr fun i _ hi => hcovers i (by omega)
  rw [heq] at hsorted hvalid' ⊢
  rw [←hleft l.length]
  cases tail with
  | nil => simpa using hfront
  | cons q tail =>
    rcases lt_or_ge l.length q.lo with hlt | hge
    · have hnil : slices l (q::tail)=[] := by rw [slices_cons,if_neg (by omega)]
      rw [slices_append_of_nil hnil,hfront]
      simpa using hlt
    have hbefore : ∀p∈front,p.lo≤l.length := fun p hp =>
      ((pairwise_append.mp hsorted).2.2 p hp q mem_cons_self).trans hge
    have hq := hvalid' q (by simp)
    rw [slices_append_of_le hbefore,flatten_append,hfront,slices_cons,if_pos hge]
    refine iff_of_false (fun hprinted => ?_) (by simpa using hge)
    -- the slice of the range that is left over is not empty
    have hlength := congrArg length (append_right_eq_self.mp hprinted)
    have := hq.pos
    have := hq.le
    simp only [flatten_cons,length_append,length_take,length_drop,length_nil] at hlength
    omega

end

theorem length_splitSeq_le (sep : Bytes) (n : ℕ) (part s : Bytes) :
    (splitSeq sep n part s).length ≤ s.length+1 := by
  fun_induction splitSeq sep n part s with
  | case1 => simp
  | case2 | case3 | case4 => simp only [length_cons]; omega

theorem splitSeq_ne_nil (sep : Bytes) (n : ℕ) (part s : Bytes) : splitSeq sep n part s≠[] := by
  fun_induction splitSeq sep n part s with
  | case1 => simp
  | case2 n part c s ih => exact ih
  | case3 part c s _ ih => simp
  | case4 part c s _ ih => exact ih

theorem length_splitWhitespace_le (field s : Bytes) :
    (splitWhitespace field s).length ≤ s.length+1 := by
  fun_induction splitWhitespace field s <;> simp only [length_cons,length_nil] <;> omega

theorem length_utf8Spans_le (fuel : ℕ) (s : Bytes) : (utf8Spans fuel s).length≤fuel := by
  induction fuel generalizing s with
  | zero => simp [utf8Spans]
  | succ fuel ih =>
    cases s with
    | nil => simp [utf8Spans]
    | cons b s =>
      have := ih ((b::s).drop (max (decodeRune (b::s)).2 1))
      simp only [utf8Spans,length_cons]
      omega

theorem length_items_le (c : Cutter) (line : Bytes) : (c.items line).length≤line.length+1 := by
  unfold Cutter.items
  have := length_utf8Spans_le line.length line
  split
  · split
    · exact length_splitWhitespace_le [] line
    · exact length_splitSeq_le c.delim 0 [] line
  · split
    · omega
    · simp

def Wanted (pairs : List Range) (complement : Bool) (i : ℕ) : Prop :=
  if complement then ¬Covers pairs i else Covers pairs i

instance (pairs : List Range) (complement : Bool) : DecidablePred (Wanted pairs complement) :=
  fun i => by
    unfold Wanted
    infer_instance

variable {pairs : List Range}

/-- The ranges of the cutter are in order and hold the wanted positions. -/
theorem selection_sorted (hvalid : ∀p∈pairs,Valid p) (complement : Bool) :
    (selection pairs complement).Pairwise (fun p q => p.lo≤q.lo) ∧
      (∀p∈selection pairs complement,p.lo≤p.hi) ∧ ∀i,0 < i→i≤unlimited→
        (Covers (selection pairs complement) i ↔ Wanted pairs complement i) := by
  cases complement with
  | false =>
    obtain ⟨hsorted,hvalid',hcovers⟩ := mergeRanges_sorted hvalid
    exact ⟨hsorted,fun p hp => (hvalid' p hp).le,fun i _ _ => hcovers i⟩
  | true =>
    obtain ⟨hsep,hcovers⟩ := selection_complement hvalid
    refine ⟨hsep.apart.imp_of_mem fun hp _ hlt => ?_,fun p hp => (hsep.start p hp).2,hcovers⟩
    exact (hsep.start _ hp).2.trans hlt.le

/-- The items printed are the wanted ones, each once and in order, exactly if the ranges are
complemented, the fields are delimited, or no range is left over within the line. -/
theorem printed_iff (c : Cutter) (hvalid : ∀p∈pairs,Valid p)
    (complement : Bool) (hpairs : c.pairs=selection pairs complement) {line : Bytes}
    (hline : line.length<unlimited) :
    (c.printed line).flatten=selectFrom (Wanted pairs complement) 1 (c.items line) ↔
      complement=true ∨ c.fieldMode=true ∧ c.whitespaceDelimited=false ∨
        ¬Doubled (c.items line).length pairs := by
  have hlen : (c.items line).length≤unlimited := by
    have := length_items_le c line
    omega
  by_cases hdelimited : c.fieldMode=true ∧ c.whitespaceDelimited=false
  · -- the walk along delimited fields
    refine iff_of_true ?_ (.inr (.inl hdelimited))
    have hne : c.items line≠[] := by
      rw [Cutter.items,if_pos hdelimited.1,if_neg (by simp [hdelimited.2])]
      exact splitSeq_ne_nil _ _ _ _
    have hprinted : (c.printed line).flatten =
        pickFields (c.items line).length c.pairs 1 (c.items line) := by
      rw [Cutter.printed,if_pos (by simpa using hdelimited),flatten_singleton]
    obtain ⟨hsorted,hle,hcovers⟩ := selection_sorted hvalid complement
    rw [hprinted,hpairs,pickFields_eq hsorted hle hne le_rfl]
    exact selectFrom_congr fun i hi hlt => hcovers i (by omega) (by omega)
  · have hprinted : (c.printed line).flatten=(slices (c.items line) c.pairs).flatten := by
      rw [Cutter.printed,if_neg (by simpa using hdelimited)]
    rw [hprinted,hpairs,or_iff_right hdelimited]
    cases complement with
    | false =>
      rw [or_iff_right (by simp)]
      exact slices_mergeRanges_iff hvalid hlen
    | true =>
      obtain ⟨hsep,hcovers⟩ := selection_complement hvalid
      refine iff_of_true ?_ (.inl rfl)
      rw [flatten_slices hsep]
      exact selectFrom_congr fun i hi hlt => hcovers i (by omega) (by omega)

/-- An accepted LIST lists some ranges; a line without fields is printed as it is, or not at all;
otherwise its wanted items are printed, each once and in order, exactly if the ranges are
complemented, the fields are delimited, or no range follows an open one within the line. -/
theorem emitLine_selects_iff (c : Cutter) {list : Bytes}
    (hparse : parseList c.fieldMode list=.ok pairs) (complement : Bool)
    (hpairs : c.pairs=selection pairs complement) {line : Bytes} (hline : line.length<unlimited) :
    List.Forall₂ Denotes (entriesFrom [] list) pairs ∧ (∀hadNL,c.emitLine line hadNL =
      if c.fieldMode=true ∧ c.hasDelim line=false then
        if c.onlyDelimited then [] else line++if hadNL then [c.lineTerm] else []
      else c.delimit (c.printed line)++if hadNL then [c.lineTerm] else []) ∧
    ((c.printed line).flatten=selectFrom (Wanted pairs complement) 1 (c.items line) ↔
      complement=true ∨ c.fieldMode=true ∧ c.whitespaceDelimited=false ∨
        ¬Doubled (c.items line).length pairs) := by
  obtain ⟨hdenotes,hvalid⟩ := parseList_spec hparse
  refine ⟨hdenotes,fun hadNL => ?_,printed_iff c hvalid complement hpairs hline⟩
  rw [Cutter.emitLine]
  simp

theorem emitLine_selects_overlapping :
    (Cutter.printed { pairs := selection [⟨2,3⟩,⟨1,2⟩] false } (ascii "abcd")).flatten =
      selectFrom (Wanted [⟨2,3⟩,⟨1,2⟩] false) 1 [[97],[98],[99],[100]] := by
  have hparse : parseList false (ascii "2-3,1-2")=.ok [⟨2,3⟩,⟨1,2⟩] := by decide
  refine (emitLine_selects_iff { pairs := _ } hparse false rfl (by decide)).2.2.mpr (.inr (.inr ?_))
  rintro ⟨p,q,hsub,hopen,-⟩
  have hclosed : ∀p∈[(⟨2,3⟩ : Range),⟨1,2⟩],p.hi≠unlimited := by decide
  exact hclosed p (hsub.subset mem_cons_self) hopen

/-- `cut -b 1-,2` prints the second byte again. -/
theorem not_emitLine_selects_open : parseList false (ascii "1-,2")=.ok [⟨1,unlimited⟩,⟨2,2⟩] ∧
    selectFrom (Wanted [⟨1,unlimited⟩,⟨2,2⟩] false) 1 (ascii "ab")=ascii "ab" ∧
    Cutter.emitLine { pairs := selection [⟨1,unlimited⟩,⟨2,2⟩] false } (ascii "ab") false =
      ascii "abb" := by
  decide

end Coreutils.CutLines
