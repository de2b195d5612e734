import Coreutils.FindPatterns

/-!
# The matcher of find is exact

A pattern is read into its elements. The matcher of the C locale answers whether the name splits
into pieces that the elements match one after another, and that of C.UTF-8 gives the same answers on
ASCII.
-/

namespace Coreutils.FindMatches
open List GoText FindPatterns

inductive Item where
  /-- `[:name:]`, `[=e=]` or `[.e.]`. -/
  | named (kind : UInt8) (element : Bytes)
  | range (lo hi : UInt8)
  deriving DecidableEq,Repr

inductive Elem where
  | star
  | any
  | set (neg : Bool) (items : List Item)
  | byte (c : UInt8)
  deriving DecidableEq,Repr

/-- The byte at the head, or the one behind a backslash there. -/
def byteMember : Bytes→UInt8×Bytes
  | [] => (0,[])
  | [b] => (b,[])
  | a::b::t => if a=92 then (b,t) else (a,b::t)

/-- The items of a bracket and what follows its end; nothing if it is not closed. -/
def items : ℕ→Bool→Bytes→Option (List Item×Bytes)
  | 0,_,_ | _,_,[] => none
  | fuel+1,first,b::t =>
    if b=93 ∧ first=false then some ([],t)
    else if b=91 ∧ (t.head?=some 58 ∨ t.head?=some 61 ∨ t.head?=some 46) then do
      let (element,rest) ← closeElement (t.headD 0) t.tail
      let (is,rest) ← items fuel false rest
      pure (.named (t.headD 0) element::is,rest)
    else do
      let (lo,rest) := byteMember (b::t)
      let (hi,rest) := if rangeFollows rest then byteMember rest.tail else (lo,rest)
      let (is,rest) ← items fuel false rest
      pure (.range lo hi::is,rest)

def bracket (p : Bytes) : Option (Bool×List Item×Bytes) :=
  let neg := p.head?=some 33 ∨ p.head?=some 94
  let p := if neg then p.tail else p
  (items (p.length+1) true p).map fun (is,rest) => (decide neg,is,rest)

/-- The elements of a pattern, given at least as much fuel as it has bytes. -/
def elementsFrom : ℕ→Bytes→List Elem
  | 0,_ | _,[] => []
  | fuel+1,b::p =>
    if b=42 then .star::elementsFrom fuel p
    else if b=63 then .any::elementsFrom fuel p
    else if b=91 then
      match bracket p with
      | some (neg,is,rest) => .set neg is::elementsFrom fuel rest
      | none => .byte 91::elementsFrom fuel p
    else if b=92 ∧ p≠[] then .byte (p.headD 0)::elementsFrom fuel p.tail
    else .byte b::elementsFrom fuel p

def elements (p : Bytes) : List Elem := elementsFrom p.length p

def Item.holds (c : UInt8) : Item→Bool
  | .named kind element =>
    if kind=58 then ((className? element).map fun name => classFn name c.toNat).getD false
    else element=[c]
  | .range lo hi => lo≤c && c≤hi

def Elem.Matches : Elem→Bytes→Prop
  | .star,_ => True
  | .any,s => s.length=1
  | .set neg is,s => ∃c,s=[c] ∧ is.any (·.holds c)≠neg
  | .byte c,s => s=[c]

/-- The name is made of pieces that the elements match in order. -/
def Splits (es : List Elem) (name : Bytes) : Prop :=
  ∃pieces : List Bytes,pieces.flatten=name ∧ List.Forall₂ Elem.Matches es pieces

variable {name p rest : Bytes} {es : List Elem} {fuel : ℕ} {a : UInt8}

theorem splits_nil : Splits [] name ↔ name=[] := by
  constructor
  · rintro ⟨pieces,rfl,h⟩
    cases h
    rfl
  · rintro rfl
    exact ⟨[],rfl,.nil⟩

theorem splits_cons {e : Elem} :
    Splits (e::es) name ↔ ∃s rest,name=s++rest ∧ e.Matches s ∧ Splits es rest := by
  constructor
  · rintro ⟨pieces,rfl,h⟩
    cases h with
    | @cons _ s _ pieces hs h => exact ⟨s,pieces.flatten,rfl,hs,pieces,rfl,h⟩
  · rintro ⟨s,rest,rfl,hs,pieces,rfl,h⟩
    exact ⟨s::pieces,rfl,.cons hs h⟩

theorem splits_star : Splits (.star::es) name ↔ ∃rest,rest <:+ name ∧ Splits es rest := by
  rw [splits_cons]
  constructor
  · rintro ⟨s,rest,rfl,-,h⟩
    exact ⟨rest,suffix_append s rest,h⟩
  · rintro ⟨rest,⟨s,rfl⟩,h⟩
    exact ⟨s,rest,rfl,trivial,h⟩

theorem splits_star_star : Splits (.star::.star::es) name ↔ Splits (.star::es) name := by
  simp only [splits_star]
  constructor
  · rintro ⟨rest,hrest,rest',hrest',h⟩
    exact ⟨rest',hrest'.trans hrest,h⟩
  · rintro ⟨rest,hrest,h⟩
    exact ⟨rest,hrest,rest,suffix_refl rest,h⟩

theorem splits_one {e : Elem} (P : UInt8→Prop) (he : ∀s,e.Matches s ↔ ∃c,s=[c] ∧ P c) :
    Splits (e::es) name ↔ ∃c t,name=c::t ∧ P c ∧ Splits es t := by
  rw [splits_cons]
  constructor
  · rintro ⟨s,rest,rfl,hs,h⟩
    obtain ⟨c,rfl,hc⟩ := (he s).mp hs
    exact ⟨c,rest,rfl,hc,h⟩
  · rintro ⟨c,t,rfl,hc,h⟩
    exact ⟨[c],t,rfl,(he _).mpr ⟨c,rfl,hc⟩,h⟩

theorem member_byteModel (fold : Bool) (b : UInt8) (t : Bytes) : member (byteModel fold) (b::t) =
      ((byteMember (b::t)).1.toNat,(byteMember (b::t)).2) := by
  cases t with
  | nil => simp [member,byteModel,byteMember]
  | cons c t =>
    have hback : b.toNat=92 ↔ b=92 := by
      rw [←UInt8.toNat_inj]
      rfl
    by_cases h : b=92 <;> simp [member,byteModel,byteMember,hback,h]

theorem exists_cons_of_rangeFollows (h : rangeFollows p=true) : ∃c t,p.tail=c::t := by
  match p,h with
  | _::b::t,_ => exact ⟨b,t,rfl⟩

theorem inNamed_byteModel (kind : UInt8) (element : Bytes) (c : UInt8) :
    inNamed (byteModel false) kind element c.toNat=Item.holds c (.named kind element) := by
  by_cases hkind : kind=58
  · simp [inNamed,Item.holds,hkind,byteModel]
  have heq : ∀e : UInt8,(e.toNat == c.toNat)=decide (e=c) := by
    intro e
    rw [Bool.eq_iff_iff,beq_iff_eq,decide_eq_true_eq,UInt8.toNat_inj]
  match element with
  | [] => simp [inNamed,Item.holds,byteModel]
  | [e] => simp [inNamed,Item.holds,byteModel,eqByte,heq]
  | _::_::_ => simp [inNamed,Item.holds,byteModel]

theorem inRange_byteModel (lo hi c : UInt8) :
    (byteModel false).inRange lo.toNat hi.toNat c.toNat=Item.holds c (.range lo hi) := by
  simp [byteModel,Item.holds,UInt8.le_iff_toNat_le]

/-- The scanner of a bracket reads its items and tests them on the way. -/
theorem scanClass_byteModel (c : UInt8) (fuel : ℕ) (first matched : Bool) (p : Bytes) :
    scanClass (byteModel false) c.toNat fuel first matched p =
      (items fuel first p).map fun (is,rest) => (matched || is.any (·.holds c),rest) := by
  induction fuel generalizing first matched p with
  | zero => rfl
  | succ fuel ih =>
    cases p with
    | nil => rfl
    | cons b t =>
      rw [scanClass,items]
      split_ifs with hclose hnamed
      · simp
      · simp only [ih,inNamed_byteModel]
        cases closeElement (t.headD 0) t.tail with
        | none => rfl
        | some r =>
          simp only [Option.bind_eq_bind,Option.bind_some]
          cases items fuel false r.2 with
          | none => rfl
          | some r' => simp [Bool.or_assoc]
      · rw [member_byteModel]
        by_cases hrange : rangeFollows (byteMember (b::t)).2=true
        · obtain ⟨d,t',htail⟩ := exists_cons_of_rangeFollows hrange
          simp only [hrange,if_true,htail,member_byteModel,ih,inRange_byteModel]
          cases items fuel false (byteMember (d::t')).2 with
          | none => rfl
          | some r' => simp [Bool.or_assoc]
        · simp only [hrange,Bool.false_eq_true,if_false,ih,inRange_byteModel]
          cases items fuel false (byteMember (b::t)).2 with
          | none => rfl
          | some r' => simp [Bool.or_assoc]

theorem matchClass_byteModel (p : Bytes) (c : UInt8) : matchClass (byteModel false) p c.toNat =
      (bracket p).map fun (neg,is,rest) => (is.any (·.holds c) != neg,rest) := by
  rw [matchClass,bracket]
  simp only [scanClass_byteModel,Option.map_map]
  rfl

theorem closeElement_suffix {kind : UInt8} {e : Bytes}
    (h : closeElement kind p=some (e,rest)) : (∀c∈e,c∈p) ∧ rest <:+ p.tail := by
  induction p generalizing e with
  | nil => cases h
  | cons a p ih =>
    cases p with
    | nil => cases h
    | cons b t =>
      rw [closeElement] at h
      split at h
      · cases h
        exact ⟨by simp,suffix_cons b rest⟩
      obtain ⟨⟨e',rest'⟩,hclose,heq⟩ := Option.map_eq_some_iff.mp h
      cases heq
      obtain ⟨he,hrest⟩ := ih hclose
      exact ⟨forall_mem_cons.mpr ⟨mem_cons_self,fun c hc => mem_cons_of_mem a (he c hc)⟩,
        hrest.trans (suffix_cons b t)⟩

theorem byteMember_suffix (b : UInt8) (t : Bytes) :
    (byteMember (b::t)).1∈b::t ∧ (byteMember (b::t)).2 <:+ t := by
  cases t with
  | nil => simp [byteMember]
  | cons c t =>
    rw [byteMember]
    split
    · exact ⟨by simp,suffix_cons c t⟩
    · exact ⟨by simp,suffix_refl _⟩

theorem length_items {first : Bool} {is : List Item}
    (h : items fuel first p=some (is,rest)) : rest.length<p.length := by
  induction fuel generalizing first p is with
  | zero => cases h
  | succ fuel ih =>
    cases p with
    | nil => cases h
    | cons b t =>
      rw [items] at h
      split_ifs at h
      · cases h
        simp
      · obtain ⟨⟨e,r⟩,hclose,h⟩ := Option.bind_eq_some_iff.mp h
        obtain ⟨⟨is',r'⟩,hitems,heq⟩ := Option.bind_eq_some_iff.mp h
        cases heq
        have h₁ := (closeElement_suffix hclose).2.length_le
        have h₂ := ih hitems
        simp only [length_tail,length_cons] at h₁ ⊢
        omega
      · have h₁ := (byteMember_suffix b t).2.length_le
        by_cases hrange : rangeFollows (byteMember (b::t)).2=true
        · obtain ⟨d,t',htail⟩ := exists_cons_of_rangeFollows hrange
          simp only [hrange,if_true,htail] at h
          obtain ⟨⟨is',r'⟩,hitems,heq⟩ := Option.bind_eq_some_iff.mp h
          obtain ⟨-,rfl⟩ := Prod.mk.inj (Option.some.inj heq)
          have h₂ : r'.length<_ := ih hitems
          have h₃ := (byteMember_suffix d t').2.length_le
          have h₄ := congrArg length htail
          simp only [length_tail,length_cons] at h₄ ⊢
          omega
        · simp only [hrange,Bool.false_eq_true,if_false] at h
          obtain ⟨⟨is',r'⟩,hitems,heq⟩ := Option.bind_eq_some_iff.mp h
          obtain ⟨-,rfl⟩ := Prod.mk.inj (Option.some.inj heq)
          have h₂ : r'.length<_ := ih hitems
          simp only [length_cons]
          omega

theorem length_bracket {neg : Bool} {is : List Item}
    (h : bracket p=some (neg,is,rest)) : rest.length<p.length := by
  obtain ⟨⟨is',rest'⟩,hitems,heq⟩ := Option.map_eq_some_iff.mp h
  cases heq
  have := length_items hitems
  split at this
  · have := length_tail (l := p)
    omega
  · exact this

theorem elementsFrom_eq (h : p.length≤fuel) : elementsFrom fuel p=elements p := by
  induction fuel using Nat.strong_induction_on generalizing p with
  | _ fuel ih =>
    rw [elements]
    cases p with
    | nil => cases fuel <;> rfl
    | cons b p =>
      obtain ⟨fuel,rfl⟩ : ∃n,fuel=n+1 := ⟨fuel-1,by simp at h; omega⟩
      rw [length_cons] at h
      have hstep : ∀q : Bytes,q.length≤p.length→
          elementsFrom fuel q=elementsFrom p.length q := by
        intro q hq
        rw [ih fuel (Nat.lt_succ_self _) (by omega),ih p.length (by omega) hq]
      rw [length_cons,elementsFrom,elementsFrom]
      rw [hstep p le_rfl,hstep p.tail (by simp)]
      cases hb : bracket p with
      | none => rfl
      | some r =>
        obtain ⟨neg,is,rest⟩ := r
        simp [hstep rest (length_bracket hb).le]

theorem elements_cons (b : UInt8) (p : Bytes) : elements (b::p) = if b=42 then .star::elements p
      else if b=63 then .any::elements p else if b=91 then match bracket p with
        | some (neg,is,rest) => .set neg is::elements rest
        | none => .byte 91::elements p
      else if b=92 ∧ p≠[] then .byte (p.headD 0)::elements p.tail
      else .byte b::elements p := by
  rw [elements,length_cons,elementsFrom,elementsFrom_eq le_rfl,
    elementsFrom_eq (show p.tail.length≤p.length by simp)]
  cases hb : bracket p with
  | none => rfl
  | some r =>
    simp [elementsFrom_eq (length_bracket hb).le]

theorem splits_stars (p name : Bytes) :
    Splits (elements (42::p)) name ↔ Splits (.star::elements (p.dropWhile (·=42))) name := by
  induction p with
  | nil => rw [elements_cons,if_pos rfl,dropWhile_nil]
  | cons b p ih =>
    by_cases hb : b=42
    · subst hb
      rw [elements_cons,if_pos rfl,dropWhile_cons_of_pos (by simp),←ih,elements_cons,
        if_pos rfl,splits_star_star]
    · rw [elements_cons,if_pos rfl,dropWhile_cons_of_neg (by simpa using hb)]

theorem mem_charTails (fold : Bool) (h : name.length≤fuel) (s : Bytes) :
    s∈charTails (byteModel fold) fuel name ↔ s <:+ name := by
  induction fuel generalizing name with
  | zero =>
    obtain rfl := length_eq_zero_iff.mp (Nat.le_zero.mp h)
    simp [charTails]
  | succ fuel ih =>
    cases name with
    | nil => simp [charTails]
    | cons c t =>
      rw [charTails,mem_cons,suffix_cons_iff]
      exact or_congr_right (ih (Nat.le_of_succ_le_succ h))

theorem decode_byteModel (fold : Bool) (c : UInt8) (t : Bytes) :
    (byteModel fold).decode (c::t)=(c.toNat,1) := rfl

theorem eq_byteModel {a c : UInt8} : (byteModel false).eq a.toNat c.toNat=true ↔ c=a := by
  simp only [byteModel,eqByte,Bool.false_and,Bool.or_false,beq_iff_eq,UInt8.toNat_inj]
  exact eq_comm

theorem literal_byteModel (a : UInt8) (p name : Bytes) : literal (byteModel false) (a::p) name =
      match name with
      | [] => none
      | c::t => if c=a then some (p,t) else none := by
  cases name with
  | nil => rfl
  | cons c t =>
    rw [literal]
    simp only [decode_byteModel,eq_byteModel]
    rfl

theorem splits_byte : Splits (.byte a::es) name ↔ ∃t,name=a::t ∧ Splits es t := by
  rw [splits_one (·=a) (by simp [Elem.Matches])]
  simp

/-- The matcher of the C locale decides whether a name splits along the elements of the pattern. -/
theorem fnmatch_byteModel (h : p.length<fuel) (name : Bytes) :
    fnmatch (byteModel false) fuel p name=true ↔ Splits (elements p) name := by
  induction fuel generalizing p name with
  | zero => omega
  | succ fuel ih =>
    cases p with
    | nil => simp [fnmatch,elements,elementsFrom,splits_nil]
    | cons b p =>
      rw [length_cons] at h
      rw [fnmatch]
      by_cases hstar : b=42
      · subst hstar
        have hdrop : (p.dropWhile (·=42)).length≤p.length := (dropWhile_suffix _).length_le
        rw [splits_stars,splits_star]
        by_cases hnil : p.dropWhile (·=42)=[]
        · simp only [if_true,hnil,decide_true,Bool.true_or,true_iff]
          exact ⟨[],nil_suffix,splits_nil.mpr rfl⟩
        · simp only [if_true,hnil,decide_false,Bool.false_or,any_eq_true]
          exact exists_congr fun s => and_congr (mem_charTails false le_rfl s) (ih (by omega) s)
      rw [elements_cons,if_neg hstar,if_neg hstar]
      by_cases hany : b=63
      · rw [if_pos hany,if_pos hany,splits_one (fun _ => True)
          (by simp [Elem.Matches,length_eq_one_iff])]
        cases name with
        | nil => simp
        | cons c t => simp [decode_byteModel,ih (show p.length<fuel by omega)]
      rw [if_neg hany,if_neg hany]
      by_cases hbracket : b=91
      · rw [if_pos hbracket,if_pos hbracket]
        cases name with
        | nil =>
          simp only [ne_eq,not_true_eq_false,decide_false,Bool.false_and]
          split
          · rw [splits_one _ fun _ => Iff.rfl]
            simp
          · rw [splits_byte]
            simp
        | cons c t =>
          simp only [decode_byteModel,matchClass_byteModel]
          cases hb : bracket p with
          | none =>
            have heq : (byteModel false).eq 91 c.toNat=true ↔ c=91 := @eq_byteModel 91 c
            simp [splits_byte,ih (show p.length<fuel by omega),heq]
          | some r =>
            obtain ⟨neg,is,rest⟩ := r
            have hlt := length_bracket hb
            rw [splits_one _ fun _ => Iff.rfl]
            simp [ih (show rest.length<fuel by omega)]
      rw [if_neg hbracket,if_neg hbracket]
      by_cases hback : b=92 ∧ p≠[]
      · obtain ⟨a,q,rfl⟩ := exists_cons_of_ne_nil hback.2
        rw [if_pos hback,if_pos hback,tail_cons,splits_byte]
        simp only [literal_byteModel]
        rw [length_cons] at h
        cases name with
        | nil => simp
        | cons c t =>
          by_cases hc : c=a
          · simp [hc,ih (show q.length<fuel by omega)]
          · simp [hc]
      · rw [if_neg hback,if_neg hback,splits_byte]
        simp only [literal_byteModel]
        cases name with
        | nil => simp
        | cons c t =>
          by_cases hc : c=b
          · simp [hc,ih (show p.length<fuel by omega)]
          · simp [hc]

def Ascii (s : Bytes) : Prop := ∀c∈s,c<128

theorem Ascii.of_suffix {s t : Bytes} (h : Ascii s) (hsub : t <:+ s) : Ascii t :=
  fun c hc => h c (hsub.subset hc)

structure Agree (m m' : CharModel) : Prop where
  decode : ∀c<128,∀t,m.decode (c::t)=(c.toNat,1) ∧ m'.decode (c::t)=(c.toNat,1)
  eq : ∀a<128,∀b<128,m.eq a b=m'.eq a b
  inClass : ∀name,∀c<128,m.inClass name c=m'.inClass name c
  inElement : ∀e,Ascii e→∀c<128,m.inElement e c=m'.inElement e c
  inRange : ∀lo<128,∀hi<128,∀c<128,m.inRange lo hi c=m'.inRange lo hi c

theorem toNat_lt_of_ascii {c : UInt8} (h : c<128) : c.toNat<128 := UInt8.lt_iff_toNat_lt.mp h

section
variable {m m' : CharModel} (hm : Agree m m') {c : ℕ}
include hm

theorem Agree.member {b : UInt8} {t : Bytes} (h : Ascii (b::t)) :
    FindPatterns.member m (b::t)=FindPatterns.member m' (b::t) ∧
      FindPatterns.member m' (b::t)=((byteMember (b::t)).1.toNat,(byteMember (b::t)).2) := by
  have hback : b.toNat=92 ↔ b=92 := by
    rw [←UInt8.toNat_inj]
    rfl
  obtain ⟨hd,hd'⟩ := hm.decode b (h b mem_cons_self) t
  cases t with
  | nil => simp [FindPatterns.member,hd,hd',byteMember]
  | cons c t =>
    obtain ⟨hc,hc'⟩ := hm.decode c (h c (by simp)) t
    by_cases hb : b=92
    · subst hb
      simp [FindPatterns.member,hd,hd',hc,hc',byteMember]
    · simp [FindPatterns.member,hd,hd',byteMember,hback,hb]

theorem Agree.inNamed (kind : UInt8) {e : Bytes} (he : Ascii e) (hc : c<128) :
    FindPatterns.inNamed m kind e c=FindPatterns.inNamed m' kind e c := by
  unfold FindPatterns.inNamed
  split
  · cases className? e with
    | none => rfl
    | some name => simp [hm.inClass name c hc]
  · exact hm.inElement e he c hc

/-- The bracket scanners agree, and leave a rest of the pattern. -/
theorem Agree.scanClass (hc : c<128) (fuel : ℕ) (first matched : Bool) (hp : Ascii p) :
    FindPatterns.scanClass m c fuel first matched p =
        FindPatterns.scanClass m' c fuel first matched p ∧
      ∀r rest,FindPatterns.scanClass m' c fuel first matched p=some (r,rest) → rest <:+ p := by
  induction fuel generalizing first matched p with
  | zero => exact ⟨rfl,fun r rest h => by cases h⟩
  | succ fuel ih =>
    cases p with
    | nil => exact ⟨rfl,fun r rest h => by cases h⟩
    | cons b t =>
      rw [FindPatterns.scanClass,FindPatterns.scanClass]
      split_ifs with hclose hnamed
      · refine ⟨rfl,fun r rest h => ?_⟩
        cases h
        exact suffix_cons _ _
      · simp only
        have htail : t.tail <:+ b::t := (tail_suffix t).trans (suffix_cons b t)
        cases he : closeElement (t.headD 0) t.tail with
        | none => exact ⟨rfl,fun r rest h => by cases h⟩
        | some er =>
          obtain ⟨e,r⟩ := er
          obtain ⟨hesub,hrsub⟩ := closeElement_suffix he
          have hsub : r <:+ b::t := hrsub.trans ((tail_suffix _).trans htail)
          simp only [Option.bind_eq_bind,Option.bind_some,
            hm.inNamed _ (fun x hx => hp x (htail.subset (hesub x hx))) hc]
          exact (ih false _ (hp.of_suffix hsub)).imp_right fun h r rest hr =>
            (h r rest hr).trans hsub
      · obtain ⟨hmem,hmem'⟩ := hm.member hp
        obtain ⟨hlo,hmore⟩ := byteMember_suffix b t
        have hsub := hmore.trans (suffix_cons b t)
        rw [hmem,hmem']
        by_cases hrange : rangeFollows (byteMember (b::t)).2=true
        · obtain ⟨d,t',htail⟩ := exists_cons_of_rangeFollows hrange
          have htsub : d::t' <:+ b::t := htail ▸ (tail_suffix _).trans hsub
          obtain ⟨hmem₂,hmem₂'⟩ := hm.member (hp.of_suffix htsub)
          obtain ⟨hhi,hmore₂⟩ := byteMember_suffix d t'
          have hsub₂ := (hmore₂.trans (suffix_cons d t')).trans htsub
          simp only [hrange,if_true,htail,hmem₂,hmem₂']
          rw [hm.inRange _ (toNat_lt_of_ascii (hp _ hlo)) _
            (toNat_lt_of_ascii (hp _ (htsub.subset hhi))) c hc]
          exact (ih false _ (hp.of_suffix hsub₂)).imp_right fun h r rest hr =>
            (h r rest hr).trans hsub₂
        · simp only [hrange,Bool.false_eq_true,if_false]
          rw [hm.inRange _ (toNat_lt_of_ascii (hp _ hlo)) _ (toNat_lt_of_ascii (hp _ hlo)) c hc]
          exact (ih false _ (hp.of_suffix hsub)).imp_right fun h r rest hr =>
            (h r rest hr).trans hsub

theorem Agree.matchClass (hc : c<128) (hp : Ascii p) :
    FindPatterns.matchClass m p c=FindPatterns.matchClass m' p c ∧
      ∀r rest,FindPatterns.matchClass m' p c=some (r,rest) → rest <:+ p := by
  unfold FindPatterns.matchClass
  simp only
  generalize hq : (if p.head?=some 33 ∨ p.head?=some 94 then p.tail else p)=q
  have hsub : q <:+ p := by
    rw [←hq]
    split
    · exact tail_suffix p
    · exact suffix_refl p
  obtain ⟨heq,hrest⟩ := hm.scanClass hc (q.length+1) true false (hp.of_suffix hsub)
  refine ⟨by rw [heq],fun r rest h => ?_⟩
  obtain ⟨⟨r',rest'⟩,hscan,heq⟩ := Option.map_eq_some_iff.mp h
  cases heq
  exact (hrest _ _ hscan).trans hsub

theorem Agree.charTails (fuel : ℕ) (hname : Ascii name) :
    FindPatterns.charTails m fuel name=FindPatterns.charTails m' fuel name ∧
      ∀s∈FindPatterns.charTails m' fuel name,s <:+ name := by
  induction fuel generalizing name with
  | zero => exact ⟨rfl,by simp [FindPatterns.charTails]⟩
  | succ fuel ih =>
    cases name with
    | nil => exact ⟨rfl,by simp [FindPatterns.charTails]⟩
    | cons c t =>
      obtain ⟨hd,hd'⟩ := hm.decode c (hname c mem_cons_self) t
      obtain ⟨heq,hsub⟩ := ih (hname.of_suffix (suffix_cons c t))
      simp only [FindPatterns.charTails,hd,hd',drop_one,tail_cons]
      refine ⟨by rw [heq],forall_mem_cons.mpr ⟨suffix_refl _,fun s hs => ?_⟩⟩
      exact (hsub s hs).trans (suffix_cons c t)

theorem Agree.literal (hp : Ascii (a::p)) (hname : Ascii name) :
    FindPatterns.literal m (a::p) name=FindPatterns.literal m' (a::p) name ∧
      ∀q n,FindPatterns.literal m' (a::p) name=some (q,n)→q=p ∧ n <:+ name := by
  cases name with
  | nil => exact ⟨rfl,fun q n h => by cases h⟩
  | cons c t =>
    have ha := hp a mem_cons_self
    have hc := hname c mem_cons_self
    obtain ⟨hda,hda'⟩ := hm.decode a ha p
    obtain ⟨hdc,hdc'⟩ := hm.decode c hc t
    simp only [FindPatterns.literal,hda,hda',hdc,hdc',
      hm.eq _ (toNat_lt_of_ascii ha) _ (toNat_lt_of_ascii hc)]
    refine ⟨trivial,fun q n h => ?_⟩
    rw [if_neg (cons_ne_nil c t)] at h
    split at h
    · cases h
      exact ⟨rfl,suffix_cons c t⟩
    · cases h

/-- On ASCII the two matchers are one. -/
theorem Agree.fnmatch (fuel : ℕ) (hp : Ascii p) (hname : Ascii name) :
    FindPatterns.fnmatch m fuel p name=FindPatterns.fnmatch m' fuel p name := by
  induction fuel generalizing p name with
  | zero => rfl
  | succ fuel ih =>
    cases p with
    | nil => rfl
    | cons b p =>
      have hp' : Ascii p := hp.of_suffix (suffix_cons b p)
      rw [FindPatterns.fnmatch,FindPatterns.fnmatch]
      split_ifs with hstar hany hbracket
      · have hdrop : Ascii (p.dropWhile (·=42)) :=
          hp'.of_suffix (dropWhile_suffix _)
        obtain ⟨heq,hsub⟩ := hm.charTails name.length hname
        simp only [heq]
        congr 1
        rw [Bool.eq_iff_iff,any_eq_true,any_eq_true]
        refine exists_congr fun s => and_congr_right fun hs => ?_
        rw [ih hdrop (hname.of_suffix (hsub s hs))]
      · cases name with
        | nil => rfl
        | cons c t =>
          obtain ⟨hd,hd'⟩ := hm.decode c (hname c mem_cons_self) t
          have ht : Ascii t := hname.of_suffix (suffix_cons c t)
          simp [hd,hd',ih hp' ht]
      · cases name with
        | nil => rfl
        | cons c t =>
          have hc := hname c mem_cons_self
          obtain ⟨hd,hd'⟩ := hm.decode c hc t
          have ht : Ascii t := hname.of_suffix (suffix_cons c t)
          obtain ⟨heq,hsub⟩ := hm.matchClass (toNat_lt_of_ascii hc) hp'
          simp only [hd,hd',drop_one,tail_cons,heq,
            hm.eq 91 (by decide) _ (toNat_lt_of_ascii hc),ih hp' ht]
          cases hclass : FindPatterns.matchClass m' p c.toNat with
          | none => rfl
          | some r =>
            simp [ih (hp'.of_suffix (hsub _ _ hclass)) ht]
      · rename_i hback
        obtain ⟨a,q,rfl⟩ := exists_cons_of_ne_nil hback.2
        obtain ⟨heq,hsuf⟩ := hm.literal hp' hname
        simp only [heq]
        cases hlit : FindPatterns.literal m' (a::q) name with
        | none => rfl
        | some r =>
          obtain ⟨hq,hn⟩ := hsuf _ _ hlit
          exact ih (hq ▸ hp'.of_suffix (suffix_cons a q)) (hname.of_suffix hn)
      · obtain ⟨heq,hsuf⟩ := hm.literal hp hname
        simp only [heq]
        cases hlit : FindPatterns.literal m' (b::p) name with
        | none => rfl
        | some r =>
          obtain ⟨hq,hn⟩ := hsuf _ _ hlit
          exact ih (hq ▸ hp') (hname.of_suffix hn)

end

section
variable (u : Unicode) {c : ℕ}

theorem cutf8Class_ascii (name : ClassName) (hc : c<128) : cutf8Class u name c=classFn name c := by
  have halpha : cutf8Alpha u c=isAlphaC c := by
    simp [cutf8Alpha,u.isLetter_ascii c hc,show ¬ 127<c by omega]
  have hbreak : cutf8NoBreak c=false := by
    simp only [cutf8NoBreak,Bool.or_eq_false_iff,beq_eq_false_iff_ne]
    omega
  have hspace : cutf8Space u c=(c == 32 || (9≤c && c≤13)) := by
    simp [cutf8Space,hbreak,u.isSpace_ascii c hc]
  have hprint : cutf8Print u c=(32≤c && c<127) := u.isGraphic_ascii c hc
  cases name with
  | upper => exact u.isUpper_ascii c hc
  | lower => exact u.isLower_ascii c hc
  | cntrl => exact u.isControl_ascii c hc
  | blank =>
    rw [cutf8Class,u.isZs_ascii c hc]
    clear hspace hprint halpha hbreak
    revert c
    decide
  | _ =>
    simp only [cutf8Class,halpha,hspace,hprint]
    clear hspace hprint halpha hbreak
    revert c
    decide

theorem eqRune_ascii (fold : Bool) {a b : ℕ} (ha : a<128) (hb : b<128) :
    eqRune u fold a b=eqByte fold a b := by
  have hmax : ¬ a>maxRune ∧ ¬ b>maxRune := by
    unfold maxRune
    omega
  unfold eqRune eqByte
  rw [u.toLower_ascii a ha,u.toLower_ascii b hb,u.toUpper_ascii a ha,u.toUpper_ascii b hb]
  by_cases heq : a=b
  · simp [heq]
  cases fold with
  | false => simp [heq]
  | true =>
    simp only [hmax.1,hmax.2,heq,Bool.not_true,decide_false,Bool.false_eq_true,
      if_false,Bool.false_or,Bool.true_and]
    rw [Bool.eq_iff_iff]
    simp only [Bool.or_eq_true,beq_iff_eq,lowerASCII]
    split_ifs <;> omega

theorem lowerASCII_lt (hc : c<128) : lowerASCII c<128 := by
  unfold lowerASCII
  split <;> omega

theorem inRuneRange_ascii {lo hi : ℕ} (hlo : lo<128) (hhi : hi<128) (hc : c<128) :
    inRuneRange lo hi c=(lo≤c && c≤hi) := by
  have hmax : ¬ hi>maxRune ∧ ¬ c>maxRune ∧ ¬ lo>maxRune := by
    unfold maxRune
    omega
  simp [inRuneRange,hmax]

theorem decodeChar_ascii (ha : a<128) (t : Bytes) : decodeChar (a::t)=(a.toNat,1) := by
  have hdecode : decodeRune (a::t)=(a.toNat,1) := if_pos ha
  have hne : a.toNat≠runeError := ((toNat_lt_of_ascii ha).trans (by decide)).ne
  simp [decodeChar,hdecode,hne]

theorem agree_utf8Model (fold : Bool) : Agree (utf8Model u fold) (byteModel fold) where
  decode c hc t := ⟨decodeChar_ascii hc t,rfl⟩
  eq a ha b hb := eqRune_ascii u fold ha hb
  inClass name c hc := by
    have hlow : u.toLower c<128 := by
      rw [u.toLower_ascii c hc]
      exact lowerASCII_lt hc
    have hup : u.toUpper c<128 := by
      rw [u.toUpper_ascii c hc]
      split <;> omega
    simp only [utf8Model,byteModel,cutf8Class_ascii u name hc,cutf8Class_ascii u name hlow,
      cutf8Class_ascii u name hup]
    simp only [u.toLower_ascii c hc,u.toUpper_ascii c hc]
    -- one of the two cases of a letter is the letter itself
    by_cases hupper : 65≤c ∧ c≤90
    · have hnot : ¬ (97≤c ∧ c≤122) := by omega
      simp only [lowerASCII,flipASCII,if_neg hnot]
      cases classFn name c <;> simp
    by_cases hlower : 97≤c ∧ c≤122
    · simp only [lowerASCII,flipASCII,if_neg hupper,if_pos hlower]
      cases classFn name c <;> simp
    · simp only [lowerASCII,flipASCII,if_neg hupper]
      cases classFn name c <;> simp
  inElement e he c hc := by
    match e with
    | [] =>
      have hne : 0xfffd≠c := by omega
      have hlow := lowerASCII_lt hc
      have hup : (if 97≤c ∧ c≤122 then c-97+65 else c)<128 := by split <;> omega
      simp [utf8Model,byteModel,decodeChar,decodeRune,runeError,eqRune,hne,u.toLower_error,
        u.toUpper_error,u.toLower_ascii c hc,u.toUpper_ascii c hc,
        beq_eq_false_iff_ne.mpr (show 0xfffd≠lowerASCII c by omega),
        beq_eq_false_iff_ne.mpr (show 0xfffd≠_ from (hup.trans (by decide)).ne')]
    | [a] =>
      have ha := he a mem_cons_self
      simp [utf8Model,byteModel,decodeChar_ascii ha,eqRune_ascii u fold (toNat_lt_of_ascii ha) hc]
    | a::b::t =>
      have ha := he a mem_cons_self
      simp [utf8Model,byteModel,decodeChar_ascii ha]
  inRange lo hlo hi hhi c hc := by
    cases fold with
    | false => exact inRuneRange_ascii hlo hhi hc
    | true =>
      simp only [utf8Model,u.toLower_ascii lo hlo,u.toLower_ascii hi hhi,u.toLower_ascii c hc]
      exact inRuneRange_ascii (lowerASCII_lt hlo) (lowerASCII_lt hhi) (lowerASCII_lt hc)

/-- In the C locale and without folding the matcher answers whether the name splits along the
elements of the pattern; on ASCII the matcher of C.UTF-8 answers the same, with folding or without.
-/
theorem fnmatch_exact :
    (∀pattern name,fnmatchLocale pattern name false=true ↔ Splits (elements pattern) name) ∧
      ∀fold pattern name,Ascii pattern→Ascii name→
        fnmatchUTF8 u pattern name fold=fnmatchLocale pattern name fold :=
  ⟨fun _ name => fnmatch_byteModel (Nat.lt_succ_self _) name,
    fun fold _ _ hp hname => (agree_utf8Model u fold).fnmatch _ hp hname⟩

end

def asciiUnicode : Unicode where
  isLetter := isAlphaC
  isNumber _ := false
  isUpper c := 65≤c && c≤90
  isLower c := 97≤c && c≤122
  isSpace c := c == 32 || (9≤c && c≤13)
  isControl c := c<32 || c == 127
  isGraphic c := 32≤c && c<127
  isZs c := c == 32
  toLower := lowerASCII
  toUpper c := if 97≤c ∧ c≤122 then c-97+65 else c
  isLetter_ascii _ _ := rfl
  isUpper_ascii _ _ := rfl
  isLower_ascii _ _ := rfl
  isSpace_ascii _ _ := rfl
  isControl_ascii _ _ := rfl
  isGraphic_ascii _ _ := rfl
  isZs_ascii _ _ := rfl
  toLower_ascii _ _ := rfl
  toUpper_ascii _ _ := rfl
  toLower_error := rfl
  toUpper_error := rfl

theorem fnmatch_exact_upper : Splits (elements (ascii "[!b]*[")) (ascii "a[") ∧
      fnmatchUTF8 asciiUnicode (ascii "[[:upper:]]?") (ascii "ab") true=true := by
  obtain ⟨hsplits,hagree⟩ := fnmatch_exact asciiUnicode
  have hascii : ∀s : Bytes,s.all (·<128)=true→Ascii s := by simp [Ascii]
  have hpattern := hascii (ascii "[[:upper:]]?") (by decide)
  have hname := hascii (ascii "ab") (by decide)
  exact ⟨(hsplits _ _).mp (by decide),(hagree true _ _ hpattern hname).trans (by decide)⟩

end Coreutils.FindMatches
