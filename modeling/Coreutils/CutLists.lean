import Coreutils.GoText
import Coreutils.Selections
import Mathlib.Data.List.Sort
import Mathlib.Data.Prod.Lex

/-!
# The LIST of cut

The state machine that reads a LIST, the merging of its ranges and their complement. An open range
ends at the largest machine integer, and `mergeRanges` adds one to that end: the ranges after it are
not merged into it, and are what is left over of a merged list.
-/

namespace Coreutils.CutLists
open List GoText Selections

def unlimited : ℕ := 2^63-1

def dash : UInt8 := 45

/-- The variables of `parseList`; `num` is the text from `numStart` on. -/
structure ListState where
  pairs : List Range := []
  initial : ℕ := 1
  value : ℕ := 0
  lhs : Bool := false
  rhs : Bool := false
  dash : Bool := false
  num : Bytes := []

section
variable (fieldMode : Bool)

def invalidRange : Bytes :=
  if fieldMode then ascii "invalid field range" else ascii "invalid byte or character range"

def fromOne : Bytes :=
  if fieldMode then ascii "fields are numbered from 1"
  else ascii "byte/character positions are numbered from 1"

def tooLarge (num : Bytes) : Bytes :=
  if fieldMode then ascii "field number '" ++ num++ascii "' is too large"
  else ascii "byte/character offset '" ++ num++ascii "' is too large"

def isSeparator (c : UInt8) : Bool := c == 44 || c == 32 || c == 9

/-- The pairs after the end of an entry. -/
def ListState.entry (st : ListState) : Except Bytes (List Range) :=
  if st.dash then
    if !st.lhs && !st.rhs then .error (ascii "invalid range with no endpoint: -")
    else if !st.rhs then .ok (st.pairs++[{ lo := st.initial,hi := unlimited }])
    else if st.value<st.initial then .error (ascii "invalid decreasing range")
    else .ok (st.pairs++[{ lo := st.initial,hi := st.value }])
  else if st.value=0 then .error (fromOne fieldMode)
  else .ok (st.pairs++[{ lo := st.value,hi := st.value }])

def parseFrom : ListState→Bytes→Except Bytes (List Range)
  | st,[] => st.entry fieldMode
  | st,ch::s =>
    if ch=CutLists.dash then
      if st.dash then .error (invalidRange fieldMode)
      else if st.lhs && st.value == 0 then .error (fromOne fieldMode)
      else
        parseFrom { st with
                            dash := true,initial := if st.lhs then st.value else 1,value := 0
                            num := [] } s
    else if isSeparator ch then
      (st.entry fieldMode).bind fun pairs =>
        parseFrom { st with pairs,dash := false,value := 0,num := [],lhs := false,rhs := false } s
    else if isDigit ch then
      if (unlimited-9)/10<st.value then
        .error (tooLarge fieldMode (st.num++(ch::s).takeWhile isDigit))
      else
        parseFrom { st with
          lhs := st.lhs || !st.dash
          rhs := st.rhs || st.dash
          value := 10*st.value+(ch.toNat-48)
          num := st.num++[ch] } s
    else .error (invalidRange fieldMode)

def parseList (list : Bytes) : Except Bytes (List Range) := parseFrom fieldMode {} list

end

def inOrder (p q : Range) : Bool := p.lo<q.lo || (p.lo == q.lo && p.hi≤q.hi)

/-- The loop of `mergeRanges`; `current.hi+1` can overflow. -/
def mergeFrom : Range→List Range→List Range
  | current,[] => [current]
  | current,next::rest =>
    if (next.lo : ℤ)≤wrap64 (current.hi+1) then
      mergeFrom { current with hi := max current.hi next.hi } rest
    else current::mergeFrom next rest

/-- `mergeRanges`; no two different pairs are equal in its order, so any sort gives one result. -/
def mergeRanges (pairs : List Range) : List Range :=
  match pairs.insertionSort (inOrder · ·) with
  | [] => []
  | current::rest => mergeFrom current rest

def gapBefore (lastHi : ℕ) (p : Range) : List Range :=
  if lastHi+1<p.lo then [{ lo := lastHi+1,hi := p.lo-1 }] else []

def complementFrom : ℕ→List Range→List Range
  | lastHi,[] => if lastHi<unlimited then [{ lo := lastHi+1,hi := unlimited }] else []
  | lastHi,p::ps =>
    if p.hi=unlimited then gapBefore lastHi p else gapBefore lastHi p++complementFrom p.hi ps

def complementRanges (pairs : List Range) : List Range := complementFrom 0 pairs

def selection (pairs : List Range) (complement : Bool) : List Range :=
  if complement then complementRanges (mergeRanges pairs) else mergeRanges pairs

def entriesFrom : Bytes→Bytes→List Bytes
  | u,[] => [u]
  | u,c::s => if isSeparator c then u::entriesFrom [] s else entriesFrom (u++[c]) s

def Digits (ds : Bytes) : Prop := ∀d∈ds,isDigit d=true

/-- The meaning of an entry: `N`, `N-`, `N-M` or `-M`, with positions counted from one. -/
inductive Denotes : Bytes→Range→Prop where
  | position {a : Bytes} (ha : Digits a) (h : 0<decimal a) :
      Denotes a { lo := decimal a,hi := decimal a }
  | fromOn {a : Bytes} (ha : Digits a) (h : 0<decimal a) :
      Denotes (a++[dash]) { lo := decimal a,hi := unlimited }
  | between {a b : Bytes} (ha : Digits a) (hb : Digits b) (h : 0<decimal a)
      (hle : decimal a≤decimal b) :
      Denotes (a++dash::b) { lo := decimal a,hi := decimal b }
  | upTo {b : Bytes} (hb : Digits b) (h : 0<decimal b) :
      Denotes (dash::b) { lo := 1,hi := decimal b }

/-- What the state knows of the entry it is reading. -/
inductive Reading : ListState→Bytes→Prop where
  | number {a : Bytes} {st : ListState} (ha : Digits a) (hdash : st.dash=false)
      (hlhs : st.lhs=!a.isEmpty) (hrhs : st.rhs=false) (hvalue : st.value=decimal a)
      (hsmall : st.value<unlimited) : Reading st a
  | range {a b : Bytes} {st : ListState} (ha : Digits a) (hb : Digits b) (hdash : st.dash=true)
      (hlhs : st.lhs=!a.isEmpty) (hrhs : st.rhs=!b.isEmpty)
      (hinitial : st.initial=if a=[] then 1 else decimal a) (hpos : 0<st.initial)
      (hbelow : st.initial<unlimited) (hvalue : st.value=decimal b)
      (hsmall : st.value<unlimited) : Reading st (a++dash::b)

structure Valid (p : Range) : Prop where
  pos : 0<p.lo
  le : p.lo≤p.hi
  below : p.lo<unlimited
  limited : p.hi≤unlimited

theorem reading_start (st : ListState) (pairs : List Range) :
    Reading { st with pairs,dash := false,value := 0,num := [],lhs := false,rhs := false } [] :=
  .number (by simp [Digits]) rfl rfl rfl rfl (by simp [unlimited])

theorem decimal_concat (ds : Bytes) (d : UInt8) : decimal (ds++[d])=10*decimal ds+(d.toNat-48) := by
  simp [decimal]

variable {fieldMode : Bool} {st : ListState} {u : Bytes} {pairs : List Range} {d : UInt8}
  {current p q : Range}

theorem Reading.entry (h : Reading st u) (hentry : st.entry fieldMode=.ok pairs) :
    ∃p,pairs=st.pairs++[p] ∧ Denotes u p ∧ Valid p := by
  unfold ListState.entry at hentry
  cases h with
  | number ha hdash hlhs hrhs hvalue hsmall =>
    rw [hdash,if_neg (by simp)] at hentry
    split at hentry
    · cases hentry
    · rename_i hne
      have hpos : 0<st.value := pos_of_ne_zero hne
      refine ⟨_,(Except.ok.inj hentry).symm,hvalue ▸ .position ha (by omega),?_⟩
      exact ⟨hpos,le_rfl,hsmall,hsmall.le⟩
  | @range a b _ ha hb hdash hlhs hrhs hinitial hpos hbelow hvalue hsmall =>
    rw [hdash,if_pos rfl] at hentry
    split at hentry
    · cases hentry
    rename_i hends
    split at hentry
    · rename_i hopen
      have hb' : b=[] := by simpa [hrhs] using hopen
      have ha' : a≠[] := by simpa [hlhs,hrhs,hb'] using hends
      rw [if_neg ha'] at hinitial
      refine ⟨_,(Except.ok.inj hentry).symm,?_,⟨hpos,hbelow.le,hbelow,le_rfl⟩⟩
      rw [hb',hinitial]
      exact .fromOn ha (by omega)
    · split at hentry
      · cases hentry
      rename_i hrhs' hle
      refine ⟨_,(Except.ok.inj hentry).symm,?_,⟨hpos,Nat.le_of_not_lt hle,hbelow,hsmall.le⟩⟩
      by_cases ha' : a=[]
      · rw [if_pos ha'] at hinitial
        rw [ha',hinitial,hvalue]
        exact .upTo hb (by omega)
      · rw [if_neg ha'] at hinitial
        rw [hinitial,hvalue]
        exact .between ha hb (by omega) (by omega)

theorem Digits.concat {ds : Bytes} (h : Digits ds) (hd : isDigit d=true) : Digits (ds++[d]) :=
  forall_mem_append.mpr ⟨h,forall_mem_singleton.mpr hd⟩

theorem digit_le (h : isDigit d=true) : d.toNat≤57 := by
  simp only [isDigit,Bool.and_eq_true,decide_eq_true_eq] at h
  exact h.2

theorem Reading.digit (h : Reading st u) (hd : isDigit d=true) (hroom : st.value≤(unlimited-9)/10) :
    Reading { st with
      lhs := st.lhs || !st.dash
      rhs := st.rhs || st.dash
      value := 10*st.value+(d.toNat-48)
      num := st.num++[d] } (u++[d]) := by
  have hdigit := digit_le hd
  have hsmall' : 10*st.value+(d.toNat-48)<unlimited := by
    simp only [unlimited] at *
    omega
  cases h with
  | number ha hdash hlhs hrhs hvalue hsmall =>
    exact .number (ha.concat hd) hdash (by simp [hdash]) (by simp [hdash,hrhs])
      (by rw [decimal_concat,hvalue]) hsmall'
  | @range a b _ ha hb hdash hlhs hrhs hinitial hpos hbelow hvalue hsmall =>
    rw [append_assoc,cons_append]
    exact .range ha (hb.concat hd) hdash (by simp [hdash,hlhs]) (by simp [hdash]) hinitial hpos
      hbelow (by rw [decimal_concat,hvalue]) hsmall'

theorem Reading.dash (h : Reading st u) (hdash : st.dash=false)
    (hzero : (st.lhs && st.value == 0)=false) :
    Reading { st with dash := true,initial := if st.lhs then st.value else 1,value := 0,num := [] }
      (u++[CutLists.dash]) := by
  cases h with
  | number ha _ hlhs hrhs hvalue hsmall =>
    have hpos : 0 < if st.lhs then st.value else 1 := by
      split
      · simp_all [pos_iff_ne_zero]
      · exact one_pos
    refine .range ha (by simp [Digits]) rfl hlhs hrhs ?_ hpos ?_ rfl (by simp [unlimited])
    · cases u <;> simp_all
    · split
      · exact hsmall
      · simp [unlimited]
  | range _ _ hdash' => simp [hdash] at hdash'

/-- The pairs are the entries of the LIST, in order. -/
theorem parseFrom_spec {s : Bytes} (h : Reading st u)
    (hparse : parseFrom fieldMode st s=.ok pairs) :
    ∃new,pairs=st.pairs++new ∧ List.Forall₂ Denotes (entriesFrom u s) new ∧ ∀p∈new,Valid p := by
  induction s generalizing st u with
  | nil =>
    obtain ⟨p,hpairs,hdenotes,hvalid⟩ := h.entry hparse
    exact ⟨[p],hpairs,.cons hdenotes .nil,by simpa using hvalid⟩
  | cons ch s ih =>
    rw [parseFrom] at hparse
    split at hparse
    · rename_i hch
      subst hch
      split at hparse
      · cases hparse
      rename_i hdash
      split at hparse
      · cases hparse
      · rename_i hzero
        have hrest := ih (h.dash (by simpa using hdash) (by simpa using hzero)) hparse
        rwa [entriesFrom]
    · split at hparse
      · rename_i hsep
        cases hentry : st.entry fieldMode with
        | error e =>
          rw [hentry] at hparse
          cases hparse
        | ok pairs' =>
          rw [hentry] at hparse
          obtain ⟨p,rfl,hdenotes,hvalid⟩ := h.entry hentry
          obtain ⟨new,hpairs,hnew,hvalids⟩ := ih (reading_start st _) hparse
          refine ⟨p::new,by simpa using hpairs,?_,?_⟩
          · rw [entriesFrom,if_pos hsep]
            exact .cons hdenotes hnew
          · simpa using ⟨hvalid,hvalids⟩
      · rename_i hsep
        split at hparse
        · rename_i hdigit
          split at hparse
          · cases hparse
          · have hrest := ih (h.digit hdigit (by omega)) hparse
            rwa [entriesFrom,if_neg hsep]
        · cases hparse

theorem parseList_spec {list : Bytes} (h : parseList fieldMode list=.ok pairs) :
    List.Forall₂ Denotes (entriesFrom [] list) pairs ∧ ∀p∈pairs,Valid p := by
  obtain ⟨new,hpairs,hnew,hvalid⟩ := parseFrom_spec (reading_start {} []) h
  subst hpairs
  exact ⟨hnew,hvalid⟩

/-- No range starts within the given length after an open one. -/
def Clean (n : ℕ) (ps : List Range) : Prop := ps.Pairwise fun p q => p.hi=unlimited→n<q.lo

theorem joins_iff {next : Range} (h : Valid current) : (next.lo : ℤ)≤wrap64 (current.hi+1) ↔
      current.hi≠unlimited ∧ next.lo≤current.hi+1 := by
  have := h.limited
  by_cases hopen : current.hi=unlimited
  · have hwrap : wrap64 (unlimited+1) = -2^63 := by decide
    rw [hopen]
    omega
  · have hrange : wrap64 (current.hi+1)=current.hi+1 := by
      simp only [unlimited] at *
      exact wrap64_of_range (by omega) (by omega)
    omega

theorem mergeFrom_cons (current : Range) (rest : List Range) :
    ∃hi ps,mergeFrom current rest={ lo := current.lo,hi }::ps := by
  induction rest generalizing current with
  | nil => exact ⟨current.hi,[],rfl⟩
  | cons next rest ih =>
    rw [mergeFrom]
    split
    · exact ih { current with hi := max current.hi next.hi }
    · exact ⟨current.hi,_,rfl⟩

/-- A merged list: separated ranges for everything listed, and what is left over. -/
structure Merged (listed front tail : List Range) (lo : ℕ) : Prop where
  separated : Separated lo front
  covers : ∀i≤unlimited,Covers front i ↔ Covers listed i
  limited : ∀p∈front,p.hi≤unlimited
  closed : tail=[] ∨ ∃p∈front,p.hi=unlimited
  left : ∀n,(∀q∈tail.head?,n<q.lo) ↔ Clean n listed

theorem Valid.join (hp : Valid p) (hq : Valid q) : Valid { p with hi := max p.hi q.hi } where
  pos := hp.pos
  le := hp.le.trans (le_max_left ..)
  below := hp.below
  limited := max_le hp.limited hq.limited

theorem covers_join (hlo : p.lo≤q.lo) (htouch : q.lo≤p.hi+1) (rest : List Range) (i : ℕ) :
    Covers ({ p with hi := max p.hi q.hi }::rest) i ↔ Covers (p::q::rest) i := by
  simp only [covers_cons,←or_assoc]
  refine or_congr_left ?_
  omega

theorem merged_single (h : Valid current) : Merged [current] [current] [] current.lo where
  separated := ⟨by simpa using h.le,by simp⟩
  covers _ _ := Iff.rfl
  limited := by simpa using h.limited
  closed := .inl rfl
  left := by simp [Clean]

section
variable {next : Range} {rest front tail : List Range}

/-- The next range overlaps the current one or touches it. -/
theorem Merged.join (hcurrent : Valid current) (hlo : current.lo≤next.lo)
    (hclosed : current.hi≠unlimited) (htouch : next.lo≤current.hi+1)
    (h : Merged ({ current with hi := max current.hi next.hi }::rest) front tail current.lo) :
    Merged (current::next::rest) front tail current.lo where
  separated := h.separated
  covers i hi := (h.covers i hi).trans (covers_join hlo htouch rest i)
  limited := h.limited
  closed := h.closed
  left n := by
    have hopen : max current.hi next.hi=unlimited ↔ next.hi=unlimited := by
      have := hcurrent.limited
      omega
    rw [h.left n]
    simp only [Clean,pairwise_cons,hopen]
    tauto

/-- The current range is open: it covers everything that follows. -/
theorem merged_open (hcurrent : Valid current) (hopen : current.hi=unlimited)
    (hsorted : (current::next::rest).Pairwise fun p q => p.lo≤q.lo) :
    Merged (current::next::rest) [current] (mergeFrom next rest) current.lo where
  separated := ⟨by simpa using hcurrent.le,by simp⟩
  covers i hi := by
    rw [covers_cons,covers_cons,or_iff_left (not_covers_nil i)]
    refine ⟨.inl,?_⟩
    rintro (h | ⟨q,hq,hlo,-⟩)
    · exact h
    · exact ⟨(rel_of_pairwise_cons hsorted hq).trans hlo,hopen ▸ hi⟩
  limited := by simpa using hcurrent.limited
  closed := .inr ⟨current,mem_cons_self,hopen⟩
  left n := by
    obtain ⟨hi,ps,hps⟩ := mergeFrom_cons next rest
    have hafter : ∀q∈rest,next.lo≤q.lo := (pairwise_cons.mp hsorted.of_cons).1
    rw [hps]
    simp only [head?_cons,Option.mem_some_iff,forall_eq',Clean,pairwise_cons,
      mem_cons,forall_eq_or_imp]
    constructor
    · intro h
      have hall : ∀q∈rest,n<q.lo := fun q hq => h.trans_le (hafter q hq)
      exact ⟨⟨fun _ => h,fun q hq _ => hall q hq⟩,fun q hq _ => hall q hq,
        pairwise_of_forall_mem_list fun _ _ q hq _ => hall q hq⟩
    · exact fun h => h.1.1 hopen

/-- There is a gap between the current range and the next one. -/
theorem Merged.gap (hcurrent : Valid current) (hgap : current.hi+1<next.lo)
    (hclosed : current.hi≠unlimited) (h : Merged (next::rest) front tail next.lo) :
    Merged (current::next::rest) (current::front) tail current.lo where
  separated := by
    have hlo : ∀p∈front,current.hi<p.lo := fun p hp => by
      have := (h.separated.start p hp).1
      omega
    refine ⟨fun p hp => ?_,pairwise_cons.mpr ⟨hlo,h.separated.apart⟩⟩
    have := hcurrent.le
    rcases mem_cons.mp hp with rfl | hp
    · exact ⟨le_rfl,this⟩
    · exact ⟨by have := hlo p hp; omega,(h.separated.start p hp).2⟩
  covers i hi := by rw [covers_cons,h.covers i hi,←covers_cons]
  limited := by simpa using ⟨hcurrent.limited,h.limited⟩
  closed := h.closed.imp id fun ⟨p,hp,hopen⟩ => ⟨p,mem_cons_of_mem _ hp,hopen⟩
  left n := by
    rw [h.left n,Clean,Clean,pairwise_cons (a := current)]
    exact ⟨fun hclean => ⟨fun _ _ hopen => absurd hopen hclosed,hclean⟩,fun hclean => hclean.2⟩

end

variable {rest : List Range} {k : ℕ}

theorem pairwise_join {next : Range}
    (h : (current::next::rest).Pairwise fun p q => p.lo≤q.lo) (hi : ℕ) :
    ({ current with hi }::rest).Pairwise fun p q => p.lo≤q.lo := by
  obtain ⟨hfirst,hrest⟩ := pairwise_cons.mp h
  exact pairwise_cons.mpr ⟨fun q hq => hfirst q (mem_cons_of_mem _ hq),hrest.of_cons⟩

theorem mergeFrom_spec (hsorted : (current::rest).Pairwise fun p q => p.lo≤q.lo)
    (hvalid : ∀p∈current::rest,Valid p) : ∃front tail,mergeFrom current rest=front++tail ∧
      Merged (current::rest) front tail current.lo := by
  induction rest generalizing current with
  | nil => exact ⟨[current],[],rfl,merged_single (hvalid _ mem_cons_self)⟩
  | cons next rest ih =>
    have hcurrent : Valid current := hvalid _ mem_cons_self
    have hnext : Valid next := hvalid _ (by simp)
    obtain ⟨hfirst,hrest⟩ := pairwise_cons.mp hsorted
    rw [mergeFrom]
    split <;> rename_i hjoin <;> rw [joins_iff hcurrent] at hjoin
    · obtain ⟨front,tail,heq,hm⟩ := ih (pairwise_join hsorted _)
        (forall_mem_cons.mpr ⟨hcurrent.join hnext,fun p hp => hvalid p (by simp [hp])⟩)
      exact ⟨front,tail,heq,hm.join hcurrent (hfirst next mem_cons_self) hjoin.1 hjoin.2⟩
    by_cases hopen : current.hi=unlimited
    · exact ⟨[current],mergeFrom next rest,rfl,merged_open hcurrent hopen hsorted⟩
    · obtain ⟨front,tail,heq,hm⟩ := ih hrest fun p hp => hvalid p (by simp [hp])
      have hgap : current.hi+1<next.lo := Nat.lt_of_not_le fun hle => hjoin ⟨hopen,hle⟩
      exact ⟨current::front,tail,by rw [heq]; rfl,hm.gap hcurrent hgap hopen⟩

theorem mergeFrom_keeps (hsorted : (current::rest).Pairwise fun p q => p.lo≤q.lo)
    (hvalid : ∀p∈current::rest,Valid p) :
    ((mergeFrom current rest).map Range.lo).Sublist ((current::rest).map Range.lo) ∧
      (∀p∈mergeFrom current rest,Valid p) ∧
      ∀i,Covers (mergeFrom current rest) i ↔ Covers (current::rest) i := by
  induction rest generalizing current with
  | nil => exact ⟨.refl _,hvalid,fun _ => Iff.rfl⟩
  | cons next rest ih =>
    obtain ⟨hcurrent,hnext,hrest⟩ : Valid current ∧ Valid next ∧ ∀p∈rest,Valid p := by
      simpa using hvalid
    obtain ⟨hfirst,hsorted'⟩ := pairwise_cons.mp hsorted
    rw [mergeFrom]
    split <;> rename_i hjoin <;> rw [joins_iff hcurrent] at hjoin
    · obtain ⟨hlo,hmerged,hcovers⟩ := ih (pairwise_join hsorted _)
        (forall_mem_cons.mpr ⟨hcurrent.join hnext,hrest⟩)
      refine ⟨hlo.trans (.cons_cons _ (sublist_cons_self ..)),hmerged,fun i => (hcovers i).trans ?_⟩
      exact covers_join (hfirst next mem_cons_self) hjoin.2 rest i
    · obtain ⟨hlo,hmerged,hcovers⟩ := ih hsorted' (forall_mem_cons.mpr ⟨hnext,hrest⟩)
      refine ⟨hlo.cons_cons _,forall_mem_cons.mpr ⟨hcurrent,hmerged⟩,fun i => ?_⟩
      rw [covers_cons,hcovers,←covers_cons]

theorem complementFrom_append {front : List Range} (h : ∃p∈front,p.hi=unlimited)
    (tail : List Range) (k : ℕ) : complementFrom k (front++tail)=complementFrom k front := by
  induction front generalizing k with
  | nil => simp at h
  | cons p front ih =>
    rw [cons_append,complementFrom,complementFrom]
    split_ifs with hp
    · rfl
    · rw [ih (by simpa [hp] using h)]

theorem separated_gapBefore (k : ℕ) (p : Range) : Separated (k+1) (gapBefore k p) := by
  unfold gapBefore
  split
  · exact ⟨by simp; omega,by simp⟩
  · exact ⟨by simp,by simp⟩

theorem gapBefore_lt (h : q∈gapBefore k p) : q.hi<p.lo := by
  unfold gapBefore at h
  split at h
  · obtain rfl := mem_singleton.mp h
    simp only
    omega
  · simp at h

theorem covers_gapBefore {i : ℕ} (hk : k < i) (p : Range) : Covers (gapBefore k p) i ↔ i<p.lo := by
  unfold gapBefore
  split
  · simp only [covers_cons,not_covers_nil,or_false]
    omega
  · simp only [not_covers_nil,false_iff]
    omega

/-- The complement is separated again and holds every other position. -/
theorem complementFrom_spec {ps : List Range} (h : Separated (k+1) ps)
    (hlimited : ∀p∈ps,p.hi≤unlimited) : Separated (k+1) (complementFrom k ps) ∧
      ∀i,k < i→i≤unlimited→(Covers (complementFrom k ps) i ↔ ¬Covers ps i) := by
  induction ps generalizing k with
  | nil =>
    rw [complementFrom]
    split
    · refine ⟨⟨by simpa,by simp⟩,fun i hki hi => ?_⟩
      simp only [covers_cons,not_covers_nil,or_false,not_false_iff,iff_true]
      exact ⟨hki,hi⟩
    · exact ⟨⟨by simp,by simp⟩,fun i hki hi => by omega⟩
  | cons p ps ih =>
    obtain ⟨hstart,hle⟩ := h.start p mem_cons_self
    obtain ⟨hsep,hrest⟩ := ih h.tail (fun q hq => hlimited q (by simp [hq]))
    rw [complementFrom]
    split
    · refine ⟨separated_gapBefore k p,fun i hki hi => ?_⟩
      rw [covers_gapBefore hki,covers_cons]
      constructor
      · exact fun hlt => not_or.mpr ⟨by omega,h.tail.not_covers (by omega)⟩
      · intro hnot
        omega
    · refine ⟨⟨forall_mem_append.mpr ⟨(separated_gapBefore k p).start,fun q hq => ?_⟩,?_⟩,
        fun i hki hi => ?_⟩
      · have := hsep.start q hq
        omega
      · refine pairwise_append.mpr ⟨(separated_gapBefore k p).apart,hsep.apart,?_⟩
        intro q hq q' hq'
        have := gapBefore_lt hq
        have := (hsep.start q' hq').1
        omega
      · rw [covers_append,covers_gapBefore hki,covers_cons]
        rcases lt_or_ge p.hi i with hlt | hge
        · rw [hrest i hlt hi,or_iff_right (by omega : ¬i<p.lo),or_iff_right (by omega)]
        · have hnot : ¬Covers (complementFrom p.hi ps) i := hsep.not_covers (by omega)
          have hnot' : ¬Covers ps i := h.tail.not_covers (by omega)
          simp only [hnot,hnot',or_false]
          omega

/-- An open range is listed with itself or one that starts after it, within the length. -/
def Doubled (n : ℕ) (pairs : List Range) : Prop :=
  ∃p q,[p,q].Subperm pairs ∧ p.hi=unlimited ∧ inOrder p q ∧ q.lo≤n

theorem inOrder_iff : inOrder p q ↔ p.lo<q.lo ∨ p.lo=q.lo ∧ p.hi≤q.hi := by simp [inOrder]

instance : Std.Antisymm fun p q : Range => (inOrder p q : Prop) where
  antisymm p q hpq hqp := by
    rw [inOrder_iff] at hpq hqp
    obtain ⟨lo,hi⟩ := p
    obtain ⟨lo',hi'⟩ := q
    simp only [Range.mk.injEq] at *
    omega

instance : Std.Total fun p q : Range => (inOrder p q : Prop) where
  total p q := by
    rw [inOrder_iff,inOrder_iff]
    omega

instance : IsTrans Range fun p q => (inOrder p q : Prop) where
  trans p q r hpq hqr := by
    rw [inOrder_iff] at *
    omega

theorem sorted_pairs (pairs : List Range) :
    (pairs.insertionSort (inOrder · ·)).Pairwise fun p q => inOrder p q :=
  pairwise_insertionSort _ pairs

theorem clean_sorted_iff {n : ℕ} :
    Clean n (pairs.insertionSort (inOrder · ·)) ↔ ¬Doubled n pairs := by
  have hperm := perm_insertionSort (inOrder · ·) pairs
  have hsorted := sorted_pairs pairs
  constructor
  · rintro hclean ⟨p,q,hsub,hopen,horder,hle⟩
    have hsublist : [p,q].Sublist (pairs.insertionSort (inOrder · ·)) :=
      sublist_of_subperm_of_pairwise (hsub.trans hperm.symm.subperm) (by simpa) hsorted
    have := pairwise_iff_forall_sublist.mp hclean hsublist hopen
    omega
  · intro hnot
    refine pairwise_iff_forall_sublist.mpr fun {p q} hsublist hopen => ?_
    by_contra hle
    exact hnot ⟨p,q,hsublist.subperm.trans hperm.subperm,hopen,
      pairwise_iff_forall_sublist.mp hsorted hsublist,by omega⟩

theorem covers_perm {ps qs : List Range} (h : ps.Perm qs) (i : ℕ) : Covers ps i ↔ Covers qs i := by
  simp [Covers,h.mem_iff]

section
variable (hvalid : ∀p∈pairs,Valid p)

include hvalid

theorem mergeRanges_cases : pairs=[] ∧ mergeRanges pairs=[] ∨
    ∃current rest,pairs.insertionSort (inOrder · ·)=current::rest ∧
      mergeRanges pairs=mergeFrom current rest ∧
      (current::rest).Pairwise (fun p q => p.lo≤q.lo) ∧ ∀p∈current::rest,Valid p := by
  have hperm := perm_insertionSort (inOrder · ·) pairs
  have hsorted := sorted_pairs pairs
  unfold mergeRanges
  generalize pairs.insertionSort (inOrder · ·)=ps at *
  cases ps with
  | nil => exact .inl ⟨perm_nil.mp hperm.symm,rfl⟩
  | cons current rest =>
    refine .inr ⟨current,rest,rfl,rfl,hsorted.imp fun {p q} h => ?_,
      fun p hp => hvalid p (hperm.mem_iff.mp hp)⟩
    rw [inOrder_iff] at h
    omega

theorem mergeRanges_spec : ∃front tail,mergeRanges pairs=front++tail ∧ Separated 1 front ∧
    (∀i≤unlimited,Covers front i ↔ Covers pairs i) ∧ (∀p∈front,p.hi≤unlimited) ∧
    (tail=[] ∨ ∃p∈front,p.hi=unlimited) ∧ ∀n,(∀q∈tail.head?,n<q.lo) ↔ ¬Doubled n pairs := by
  simp only [←clean_sorted_iff,←covers_perm (perm_insertionSort (inOrder · ·) pairs)]
  rcases mergeRanges_cases hvalid with ⟨rfl,heq⟩ | ⟨current,rest,hps,heq,hlo,hvalid'⟩
  · exact ⟨[],[],heq,⟨by simp,by simp⟩,by simp,by simp,.inl rfl,by simp [Clean]⟩
  obtain ⟨front,tail,hm',hm⟩ := mergeFrom_spec hlo hvalid'
  have hpos := (hvalid' current mem_cons_self).pos
  rw [hps,heq]
  refine ⟨front,tail,hm',⟨fun p hp => ?_,hm.separated.apart⟩,hm.covers,hm.limited,hm.closed,
    hm.left⟩
  have := hm.separated.start p hp
  omega

/-- The merged ranges are in order and hold what is listed, also after an open one. -/
theorem mergeRanges_sorted : (mergeRanges pairs).Pairwise (fun p q => p.lo≤q.lo) ∧
    (∀p∈mergeRanges pairs,Valid p) ∧ ∀i,Covers (mergeRanges pairs) i ↔ Covers pairs i := by
  simp only [←covers_perm (perm_insertionSort (inOrder · ·) pairs)]
  rcases mergeRanges_cases hvalid with ⟨rfl,heq⟩ | ⟨current,rest,hps,heq,hlo,hvalid'⟩
  · simp [heq]
  · rw [hps,heq]
    obtain ⟨hsub,hkept⟩ := mergeFrom_keeps hlo hvalid'
    exact ⟨pairwise_map.mp ((pairwise_map.mpr hlo).sublist hsub),hkept⟩

theorem selection_complement : Separated 1 (selection pairs true) ∧
    ∀i,0 < i→i≤unlimited→(Covers (selection pairs true) i ↔ ¬Covers pairs i) := by
  obtain ⟨front,tail,heq,hsep,hcovers,hlimited,hclosed,-⟩ := mergeRanges_spec hvalid
  have hdrop : selection pairs true=complementFrom 0 front := by
    rw [selection,if_pos rfl,complementRanges,heq]
    rcases hclosed with rfl | h
    · rw [append_nil]
    · exact complementFrom_append h tail 0
  obtain ⟨hsep',hrest⟩ := complementFrom_spec hsep hlimited
  rw [hdrop]
  refine ⟨hsep',fun i hi hle => ?_⟩
  rw [hrest i hi hle,hcovers i hle]

end

end Coreutils.CutLists
