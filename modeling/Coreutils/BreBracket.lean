import Coreutils.BreMatcher
import Coreutils.BreText

/-!
# Bracket expressions

`translateBracketMode` of `pkg/bre/bre.go` and the brackets of `element_bracket.go`. The search for
the `:]` of a class starts at its `[:`, so that in `[:]` both share the colon and the name is a
slice out of range.
-/

namespace Coreutils.BreBracket
open List BreMatcher BreText Faults GoText

/-- `locale.CollatingElement`, with its primary weights. -/
structure Element where
  text : Bytes
  weights : List ℤ
  order : ℤ

/-- `elementCollation`: the declared elements, no two of one text. -/
structure Collation where
  elements : List Element
  distinct : (elements.map Element.text).Nodup

def Collation.byText (c : Collation) (text : Bytes) : Option Element :=
  c.elements.find? (·.text == text)

structure Tables where
  elements : Option Collation
  classes : Bytes→Option (UInt8→Bool)
  equivalent : UInt8→UInt8→Bool
  equivValid : UInt8→Bool
  collseq : UInt8→UInt8
  collating : UInt8→Bool
  fold : UInt8→UInt8
  dotAll : Bool
  multi : Bool

def opened (s : Bytes) : Bool×Bytes :=
  match s.drop 1 with
  | 94::t => (true,t)
  | t => (false,t)

/-- A member of an `elementBracket`: a text, or a set given by a class or by texts. -/
structure ElementMember where
  text : Bytes
  cls : Bytes
  set : Bool
  texts : List Bytes

structure ElementBracket where
  texts : List Bytes
  classes : List Bytes
  negated : Bool

def readSingle (unicode : Bool) (t : Bytes) : Outcome Message (ElementMember×Bytes) := do
  let size := if unicode then (decodeRune t).2 else 1
  let text ← checkedSlice t 0 size
  return (⟨text,[],false,[]⟩,t.drop size)

def delimitedMember (c : Collation) (delim : UInt8) (text : Bytes) :
    Outcome Message ElementMember :=
  if delim=58 then .ok ⟨[],text,true,[]⟩
  else match c.byText text with
    | none => .error [.text (ascii "invalid collating element "),.quoted text]
    | some e =>
      if delim=46 then .ok ⟨text,[],false,[]⟩
      else .ok ⟨[],[],true,(c.elements.filter (·.weights == e.weights)).map Element.text⟩

/-- The closure `read` of `parseElementBracket`: a member and what follows it. -/
def readMember (c : Collation) (unicode : Bool) (t : Bytes) :
    Outcome Message (ElementMember×Bytes) :=
  match t with
  | [] => .error (say "unclosed bracket expression")
  | 91::delim::u =>
    if delim=46 ∨ delim=58 ∨ delim=61 then
      match index [delim,93] u with
      | none => .error (say "malformed bracket member")
      | some stop => do
        let text ← checkedSlice t 2 (2+stop)
        let m ← delimitedMember c delim text
        return (m,t.drop (stop+4))
    else readSingle unicode t
  | _ => readSingle unicode t

def rangeTexts (c : Collation) (m n : ElementMember) : Outcome Message (List Bytes) :=
  if m.set || n.set then .error (say "class cannot be a range endpoint")
  else match c.byText m.text,c.byText n.text with
    | some a,some b =>
      if b.order<a.order then .error (say "invalid range end")
      else .ok ((c.elements.filter fun e => a.order≤e.order && e.order≤b.order).map Element.text)
    | _,_ => .error (say "undefined collating range endpoint")

def ElementBracket.add (out : ElementBracket) (m : ElementMember) :
    Outcome Message ElementBracket :=
  if m.set then
    if m.cls≠[] then .ok { out with classes := out.classes++[m.cls] }
    else if m.texts≠[] then .ok { out with texts := out.texts++m.texts }
    else .error (say "empty character class")
  else .ok { out with texts := out.texts++[m.text] }

/-- The loop of `parseElementBracket`, with fuel first: the bracket and what follows it. -/
def elementMembers (c : Collation) (unicode : Bool) :
    ℕ→Bool→Bytes→ElementBracket→Outcome Message (ElementBracket×Bytes)
  | 0,_,_,_ => .fault
  | _+1,_,[],_ => .error (say "unclosed bracket expression")
  | fuel+1,first,b::t,out =>
    if b=93 ∧ first=false then .ok (out,t)
    else do
      let (m,rest) ← readMember c unicode (b::t)
      match rest with
      | 45::d::u =>
        if d≠93 then
          let (n,rest) ← readMember c unicode (d::u)
          let texts ← rangeTexts c m n
          elementMembers c unicode fuel false rest { out with texts := out.texts++texts }
        else
          let out ← out.add m
          elementMembers c unicode fuel false rest out
      | _ =>
        let out ← out.add m
        elementMembers c unicode fuel false rest out

/-- `parseElementBracket`: the bracket at the head of a pattern and the bytes it takes. -/
def parseElementBracket (pattern : Bytes) (c : Collation) (unicode : Bool) :
    Outcome Message (ElementBracket×ℕ) := do
  let (negated,t) := opened pattern
  let (b,rest) ← elementMembers c unicode (t.length+1) true t ⟨[],[],negated⟩
  return (b,pattern.length-rest.length)

def classMember (text : Bytes) : Bytes := escapeClassRune (decodeRune text).1

def isSingle (text : Bytes) : Bool := text≠[] && (decodeRune text).2 == text.length

section
variable (host : Host)

def classContents : List Bytes→Outcome Message Bytes
  | [] => .ok []
  | name::names =>
    match host.classContent name with
    | none => .error [.text (ascii "unsupported named character class "),.quoted name]
    | some content => do return content++(← classContents names)

def elementClass (b : ElementBracket) (contents : Bytes) : Bytes :=
  let singles := (b.texts.filter isSingle).flatMap classMember++contents
  let sequences :=
    if b.negated then [] else (b.texts.filter fun text => !isSingle text).map quoteMeta
  let alternatives :=
    if b.negated then
      -- an empty exclusion set means any character
      if singles=[] then [ascii "(?s:.)"] else [ascii "[^" ++ singles++ascii "]"]
    else sequences++if singles=[] then [] else [ascii "[" ++ singles++ascii "]"]
  if alternatives=[] then ascii "[^\\s\\S]"
  else ascii "(?:" ++ (ascii "|").intercalate alternatives++ascii ")"

def unicodeElementBracket (pattern : Bytes) (c : Collation) : Outcome Message (Bytes×ℕ) := do
  let (b,n) ← parseElementBracket pattern c true
  let contents ← classContents host b.classes
  return (elementClass b contents,n)

/-- A named class: what it adds to the class, and the bytes it takes. -/
def namedClass (cutf8 : Bool) (t : Bytes) : Outcome Message (Bytes×ℕ) :=
  match index [58,93] t with
  | none => .error (say "unmatched [: in bracket expression")
  | some stop => do
    let name ← checkedSlice t 2 stop
    if cutf8 then
      match host.classContent name with
      | none => .error [.text (ascii "unsupported named character class "),.quoted name]
      | some content => return (content,stop+2)
    else return (← checkedSlice t 0 (stop+2),stop+2)

def equivalents (tables : Tables) (r : ℕ) : Bytes :=
  (range 256).flatMap fun value =>
    if tables.equivalent (.ofNat r) (.ofNat value) then escapeClassRune value else []

def symbolText (cutf8 : Bool) (tables : Option Tables) (delim : UInt8) (r : ℕ) : Bytes :=
  match tables with
  | some tables =>
    if cutf8 ∧ delim=61 ∧ r≤0xff then equivalents tables r else escapeClassRune r
  | none => escapeClassRune r

/-- A collating symbol `[.x.]` or an equivalence class `[=x=]`. -/
def collatingSymbol (cutf8 : Bool) (tables : Option Tables) (delim : UInt8) (t : Bytes) :
    Outcome Message (Bytes×ℕ) :=
  match index [delim,93] (t.drop 2) with
  | none => .error (sayWith "unmatched [" [delim] " in bracket expression")
  | some stop => do
    let content ← checkedSlice t 2 (2+stop)
    let (r,size) := decodeRune content
    if content=[] then
      if delim=46 then .error (say "empty collating symbol [..]")
      else .error (say "empty equivalence class [==]")
    else if size≠content.length ∨ r=runeError ∧ size=1 then
      .error [.text (ascii "invalid collating element "),.quoted content,
        .text (ascii " in C locale")]
    else return (symbolText cutf8 tables delim r,2+stop+2)

/-- The switch of `translateBracketMode`: what a member adds, and the bytes it takes. -/
def member (cutf8 : Bool) (tables : Option Tables) (t : Bytes) : Outcome Message (Bytes×ℕ) :=
  match t with
  | 91::58::_ => namedClass host cutf8 t
  | 91::delim::_ =>
    if delim=46 ∨ delim=61 then collatingSymbol cutf8 tables delim t else .ok ([91],1)
  | 92::_ => .ok ([92,92],1)
  | 93::_ => .ok ([92,93],1)
  | c::_ => .ok ([c],1)
  | [] => .ok ([],0)

/-- The loop of `translateBracketMode` over the members, with fuel first; `i` bytes are read, `t` is
left and `b` is the class so far. -/
def members (cutf8 : Bool) (tables : Option Tables) (s : Bytes) :
    ℕ→Bool→ℕ→Bytes→Bytes→Outcome Message (Bytes×ℕ)
  | 0,_,_,_,_ => .fault
  | _+1,_,_,[],_ => .error (say "unmatched [")
  | fuel+1,first,i,c::t,b =>
    if c=93 ∧ first=false then
      let cls := b++[93]
      if (host.compile cls).isNone then
        .error [.text (ascii "invalid bracket expression "),.quoted (s.take (i+1)),
          .text (ascii ": "),.cause]
      else .ok (cls,i+1)
    else do
      let (text,n) ← member host cutf8 tables (c::t)
      members cutf8 tables s fuel false (i+n) ((c::t).drop n) (b++text)

/-- `translateBracketMode`: the class of the bracket at the head of `s`, and its length. -/
def translateBracketMode (s : Bytes) (cutf8 : Bool) (tables : Option Tables) :
    Outcome Message (Bytes×ℕ) :=
  match tables.bind Tables.elements with
  | some c => unicodeElementBracket host s c
  | none =>
    let (negated,t) := opened s
    if negated then members host cutf8 tables s (s.length+1) true 2 t (ascii "[^")
    else members host cutf8 tables s (s.length+1) true 1 t (ascii "[")

def translateBracket (s : Bytes) : Outcome Message (Bytes×ℕ) :=
  translateBracketMode host s false none

end

/-- A text of one rune, and of a valid one. -/
def SingleRune (content : Bytes) : Prop :=
  content≠[] ∧ (decodeRune content).2=content.length ∧
    ¬ ((decodeRune content).1=runeError ∧ (decodeRune content).2=1)

/-- One member is read from a text: a class up to the first `:]` behind its opener, an element or
equivalence class of one rune, or a byte. -/
inductive Member : Bytes→Bytes→Prop where
  | named {u : Bytes} {k : ℕ} (hu : u.head?≠some 93) (hk : index [58,93] u=some k) :
      Member (91::58::u) (u.drop (k+2))
  | element {delim : UInt8} {u : Bytes} {k : ℕ} (hd : delim=46 ∨ delim=61)
      (hk : index [delim,93] u=some k) (hrune : SingleRune (u.take k)) :
      Member (91::delim::u) (u.drop (k+2))
  | byte {c : UInt8} {u : Bytes}
      (hc : c=91→∀d∈u.head?,d≠58 ∧ d≠46 ∧ d≠61) : Member (c::u) u

/-- Reading members one comes to `[:]`. A `]` is a member only where the expression starts. -/
inductive Overlap : Bool→Bytes→Prop where
  | here {first : Bool} {u : Bytes} : Overlap first (91::58::93::u)
  | next {first : Bool} {t u : Bytes} (hfirst : t.head?=some 93→first=true)
      (hmember : Member t u) (h : Overlap false u) : Overlap first t

/-- The members of a bracket expression up to its `]`, and what follows that. -/
inductive Closes : Bool→Bytes→Bytes→Prop where
  | here {u : Bytes} : Closes false (93::u) u
  | next {first : Bool} {t u rest : Bytes} (hfirst : t.head?=some 93→first=true)
      (hmember : Member t u) (h : Closes false u rest) : Closes first t rest

/-- The bracket expression that starts here has a member `[:` whose colon a `]` follows. -/
def SharesColon (s : Bytes) : Prop := Overlap true (opened s).2

variable {s : Bytes} {u : Bytes}

/-- A negated bracket expression has two bytes before its members, another has one. -/
theorem length_opened (hne : s≠[]) :
    (opened s).2.length+(if (opened s).1 then 2 else 1)=s.length := by
  obtain ⟨c,u,rfl⟩ := exists_cons_of_ne_nil hne
  rw [opened,drop_one,tail_cons]
  split <;> simp

theorem index_opener (hu : u.head?≠some 93) :
    index [58,93] (91::58::u)=(index [58,93] u).map (·+2) := by
  cases u with
  | nil => decide
  | cons c u =>
    have hc : ((93 : UInt8) == c)=false := by
      rw [beq_eq_false_iff_ne]
      rintro rfl
      exact hu rfl
    have h₁ : isPrefixOf [58,93] (58::c::u)=false := by simp [isPrefixOf,hc]
    rw [index,index,h₁]
    simp

variable {t : Bytes}

section
variable (host : Host) (cutf8 : Bool) (tables : Option Tables)

/-- A named class is an error, or reaches to the first `:]`; then only an unknown name is one. -/
theorem namedClass_cases (hu : u.head?≠some 93) :
    (index [58,93] u=none ∧ ∃e,namedClass host cutf8 (91::58::u)=.error e) ∨
      ∃k,index [58,93] u=some k ∧ ((∃b,namedClass host cutf8 (91::58::u)=.ok (b,k+2+2)) ∨
          cutf8=true ∧ ∃e,namedClass host cutf8 (91::58::u)=.error e) := by
  cases hk : index [58,93] u with
  | none =>
    refine .inl ⟨rfl,say "unmatched [: in bracket expression",?_⟩
    simp [namedClass,index_opener hu,hk]
  | some k =>
    have hle : k+2≤u.length := index_le hk
    have hname : checkedSlice (91::58::u) 2 (k+2)=.ok _ :=
      checkedSlice_ok (by omega) (by simp only [length_cons]; omega)
    have hall : checkedSlice (91::58::u) 0 (k+2+2)=.ok _ :=
      checkedSlice_ok (by omega) (by simp only [length_cons]; omega)
    refine .inr ⟨k,rfl,?_⟩
    simp only [namedClass,index_opener hu,hk,Option.map_some,hname,Outcome.ok_bind]
    cases cutf8 with
    | false => exact .inl ⟨_,by rw [hall]; rfl⟩
    | true =>
      rw [if_pos rfl]
      split
      · exact .inr ⟨rfl,_,rfl⟩
      · exact .inl ⟨_,rfl⟩

/-- A collating symbol is an error, or one rune up to the first terminator. -/
theorem collatingSymbol_cases (delim : UInt8) (u : Bytes) :
    ((∃e,collatingSymbol cutf8 tables delim (91::delim::u)=.error e) ∧
        ∀k,index [delim,93] u=some k→¬ SingleRune (u.take k)) ∨
      ∃b k,index [delim,93] u=some k ∧ SingleRune (u.take k) ∧
        collatingSymbol cutf8 tables delim (91::delim::u)=.ok (b,2+k+2) := by
  have hdrop : (91::delim::u).drop 2=u := rfl
  cases hk : index [delim,93] u with
  | none =>
    refine .inl ⟨⟨sayWith "unmatched [" [delim] " in bracket expression",?_⟩,by simp⟩
    simp [collatingSymbol,hk]
  | some k =>
    have hle : k+2≤u.length := index_le hk
    have hcontent : checkedSlice (91::delim::u) 2 (2+k)=.ok (u.take k) := by
      rw [checkedSlice_ok (by omega) (by simp only [length_cons]; omega)]
      simp [add_comm 2 k]
    simp only [collatingSymbol,hdrop,hk,hcontent,Outcome.ok_bind]
    by_cases hrune : SingleRune (u.take k)
    · obtain ⟨hne,hsize,hvalid⟩ := hrune
      refine .inr ⟨symbolText cutf8 tables delim (decodeRune (u.take k)).1,k,rfl,
        ⟨hne,hsize,hvalid⟩,?_⟩
      rw [if_neg hne,if_neg (not_or.mpr ⟨not_not.mpr hsize,hvalid⟩)]
      rfl
    · refine .inl ⟨?_,fun j hj => by cases hj; exact hrune⟩
      by_cases hne : u.take k=[]
      · rw [if_pos hne]
        split <;> exact ⟨_,rfl⟩
      rw [if_neg hne,if_pos]
      · exact ⟨_,rfl⟩
      · by_contra hn
        rw [not_or,not_not] at hn
        exact hrune ⟨hne,hn⟩

/-- What starts at a `[` is a class or a symbol only by the byte that follows. -/
theorem member_byte {c : UInt8} (hc : c=91→∀d∈u.head?,d≠58 ∧ d≠46 ∧ d≠61) :
    ∃b,member host cutf8 tables (c::u)=.ok (b,1) := by
  by_cases h : c=91
  · subst h
    cases u with
    | nil => exact ⟨_,rfl⟩
    | cons d u =>
      obtain ⟨hcolon,hdot,heq⟩ := hc rfl d rfl
      have hdelim : ¬ (d=46 ∨ d=61) := not_or.mpr ⟨hdot,heq⟩
      exact ⟨[91],by simp [member,hdelim]⟩
  · unfold member
    split
    all_goals first | exact ⟨_,rfl⟩ | simp_all

theorem member_shapes (hne : t≠[]) :
    (∃u,t=91::58::u) ∨ (∃delim u,(delim=46 ∨ delim=61) ∧ t=91::delim::u) ∨
      ∃c u,t=c::u ∧ (c=91→∀d∈u.head?,d≠58 ∧ d≠46 ∧ d≠61) := by
  obtain ⟨c,u,rfl⟩ := exists_cons_of_ne_nil hne
  by_cases h : c=91 ∧ ∃d∈u.head?,d=58 ∨ d=46 ∨ d=61
  · obtain ⟨rfl,d,hd,hdelim⟩ := h
    obtain ⟨u,rfl⟩ : ∃v,u=d::v := ⟨u.tail,eq_cons_of_mem_head? hd⟩
    obtain rfl | hdelim := hdelim
    · exact .inl ⟨u,rfl⟩
    · exact .inr (.inl ⟨d,u,hdelim,rfl⟩)
  · refine .inr (.inr ⟨c,u,rfl,fun hc d hd => ?_⟩)
    have hn : ¬ (d=58 ∨ d=46 ∨ d=61) := fun hdelim => h ⟨hc,d,hd,hdelim⟩
    simpa only [not_or] using hn

theorem member_symbol {delim : UInt8} (hd : delim=46 ∨ delim=61) (u : Bytes) :
    member host cutf8 tables (91::delim::u) =
      collatingSymbol cutf8 tables delim (91::delim::u) := by
  rcases hd with rfl | rfl <;> rfl

/-- A member is read as the grammar has it, and its reading faults only at `[:]`. -/
theorem member_sound (hne : t≠[]) : (member host cutf8 tables t=.fault→∃u,t=91::58::93::u) ∧
      ∀b n,member host cutf8 tables t=.ok (b,n)→Member t (t.drop n) ∧ 0<n ∧ n≤t.length := by
  rcases member_shapes hne with ⟨u,rfl⟩ | ⟨delim,u,hd,rfl⟩ | ⟨c,u,rfl,hc⟩
  · by_cases hu : u.head?=some 93
    · obtain ⟨v,rfl⟩ : ∃v,u=93::v := ⟨u.tail,eq_cons_of_mem_head? hu⟩
      refine ⟨fun _ => ⟨v,rfl⟩,fun b n h => ?_⟩
      cases h
    have hcases := namedClass_cases host cutf8 hu
    rw [show namedClass host cutf8 (91::58::u)=member host cutf8 tables (91::58::u)
      from rfl] at hcases
    rcases hcases with ⟨-,e,he⟩ | ⟨k,hk,⟨b,hb⟩ | ⟨-,e,he⟩⟩
    · simp [he]
    · rw [hb]
      refine ⟨by simp,fun b' n h => ?_⟩
      obtain ⟨rfl,rfl⟩ : b=b' ∧ k+2+2=n := by simpa using h
      have := index_le hk
      exact ⟨.named hu hk,by omega,by simpa using this⟩
    · simp [he]
  · rw [member_symbol host cutf8 tables hd]
    rcases collatingSymbol_cases cutf8 tables delim u with ⟨⟨e,he⟩,-⟩ | ⟨b,k,hk,hrune,hb⟩
    · simp [he]
    rw [hb]
    refine ⟨by simp,fun b' n h => ?_⟩
    obtain ⟨rfl,rfl⟩ : b=b' ∧ 2+k+2=n := by simpa using h
    have hle := index_le hk
    rw [show 2+k+2=k+2+2 by omega]
    exact ⟨.element hd hk hrune,by omega,by simpa using hle⟩
  · obtain ⟨b,hb⟩ := member_byte host cutf8 tables hc
    rw [hb]
    refine ⟨by simp,fun b' n h => ?_⟩
    obtain ⟨rfl,rfl⟩ : b=b' ∧ 1=n := by simpa using h
    exact ⟨.byte hc,by omega,by simp⟩

/-- Without C.UTF-8 classes every member of the grammar is read. -/
theorem member_complete {t u : Bytes} (h : Member t u) :
    ∃b n,member host false tables t=.ok (b,n) ∧ u=t.drop n := by
  cases h with
  | @named u k hu hk =>
    rcases namedClass_cases host false hu with ⟨hnone,-⟩ | ⟨k',hk',⟨b,hb⟩ | ⟨hfalse,-⟩⟩
    · simp [hk] at hnone
    · obtain rfl : k=k' := by simpa [hk] using hk'
      exact ⟨b,_,hb,rfl⟩
    · cases hfalse
  | @element delim u k hd hk hrune =>
    rw [member_symbol host false tables hd]
    rcases collatingSymbol_cases false tables delim u with ⟨-,hnone⟩ | ⟨b,k',hk',-,hb⟩
    · exact absurd hrune (hnone k hk)
    · obtain rfl : k=k' := by simpa [hk] using hk'
      exact ⟨b,_,hb,by rw [show 2+k+2=k+2+2 by omega]; rfl⟩
  | @byte c u hc =>
    obtain ⟨b,hb⟩ := member_byte host false tables hc
    exact ⟨b,1,hb,rfl⟩

/-- The loop faults only at a `[:]` that it comes to, and ends at the `]` behind its members. -/
theorem members_sound (s : Bytes) {fuel i : ℕ} {first : Bool} {t b : Bytes}
    (hfuel : t.length<fuel) :
    (members host cutf8 tables s fuel first i t b=.fault→Overlap first t) ∧
      ∀cls n,members host cutf8 tables s fuel first i t b=.ok (cls,n)→
        i<n ∧ n ≤ i+t.length ∧ Closes first t (t.drop (n-i)) := by
  induction fuel generalizing first i t b with
  | zero => omega
  | succ fuel ih =>
    cases t with
    | nil => simp [members]
    | cons c t =>
      rw [members]
      split
      · next hclose =>
        obtain ⟨rfl,rfl⟩ := hclose
        dsimp only
        split
        · simp
        · refine ⟨by simp,fun cls n h => ?_⟩
          obtain ⟨-,rfl⟩ : _ ∧ i+1=n := by simpa using h
          exact ⟨by omega,by simp only [length_cons]; omega,by simpa using Closes.here⟩
      · next hclose =>
        have hfirst : (c::t).head?=some 93→first=true := by
          intro hc
          cases first with
          | true => rfl
          | false => exact absurd ⟨by simpa using hc,rfl⟩ hclose
        obtain ⟨hfault,hok⟩ := member_sound host cutf8 tables (cons_ne_nil c t)
        cases hm : member host cutf8 tables (c::t) with
        | error e => simp
        | fault =>
          obtain ⟨u,hu⟩ := hfault hm
          rw [hu]
          exact ⟨fun _ => .here,by simp⟩
        | ok r =>
          obtain ⟨text,n⟩ := r
          obtain ⟨hmember,hpos,hle⟩ := hok text n hm
          have hlen : ((c::t).drop n).length=t.length+1-n := by simp
          obtain ⟨ihfault,ihok⟩ := @ih (i+n) false ((c::t).drop n) (b++text)
            (by simp only [length_cons] at hfuel; omega)
          refine ⟨fun h => .next hfirst hmember (ihfault h),fun cls m h => ?_⟩
          obtain ⟨hlt,hle',hcloses⟩ := ihok cls m h
          rw [drop_drop,show n+(m-(i+n))=m-i by omega] at hcloses
          simp only [length_cons] at hle ⊢
          exact ⟨by omega,by omega,.next hfirst hmember hcloses⟩

/-- Without C.UTF-8 classes it faults at every such `[:]`. -/
theorem members_complete (s : Bytes) {fuel i : ℕ} {first : Bool} {t b : Bytes}
    (hfuel : t.length<fuel) (h : Overlap first t) :
    members host false tables s fuel first i t b=.fault := by
  induction h generalizing fuel i b with
  | @here first u =>
    obtain ⟨fuel,rfl⟩ : ∃k,fuel=k+1 := ⟨fuel-1,by omega⟩
    rfl
  | @next first t u hfirst hmember hover ih =>
    obtain ⟨fuel,rfl⟩ : ∃k,fuel=k+1 := ⟨fuel-1,by omega⟩
    obtain ⟨text,n,hm,rfl⟩ := member_complete host tables hmember
    cases t with
    | nil => cases hmember
    | cons c t =>
      obtain ⟨-,hok⟩ := member_sound host false tables (cons_ne_nil c t)
      obtain ⟨-,hpos,hle⟩ := hok text n hm
      have hclose : ¬ (c=93 ∧ first=false) := by
        rintro ⟨rfl,rfl⟩
        exact absurd (hfirst rfl) (by simp)
      rw [members,if_neg hclose,hm]
      exact ih (by simp only [length_drop] at hfuel ⊢; omega)

end

section
variable (c : Collation) (unicode : Bool)

theorem safe_checkedSlice {lo hi : ℕ} (hle : lo≤hi) (hhi : hi ≤ s.length) :
    (checkedSlice s lo hi).Safe fun _ => True := by
  rw [checkedSlice_ok hle hhi]
  exact Outcome.safe_ok trivial

theorem safe_readSingle (hne : t≠[]) :
    (readSingle unicode t).Safe fun r => r.2.length<t.length := by
  have hlen : 0<t.length := length_pos_iff.mpr hne
  have hsize : 0<(if unicode then (decodeRune t).2 else 1) ∧
      (if unicode then (decodeRune t).2 else 1)≤t.length := by
    split
    · exact decodeRune_size hne
    · omega
  refine (safe_checkedSlice (Nat.zero_le _) hsize.2).bind fun text _ => Outcome.safe_ok ?_
  simp only [length_drop]
  omega

theorem safe_delimitedMember (delim : UInt8) (text : Bytes) :
    (delimitedMember c delim text).Safe fun _ => True := by
  unfold delimitedMember
  split
  · exact Outcome.safe_ok trivial
  · split
    · exact Outcome.safe_error _
    · split <;> exact Outcome.safe_ok trivial

theorem safe_readMember (t : Bytes) :
    (readMember c unicode t).Safe fun r => r.2.length<t.length := by
  unfold readMember
  split
  · exact Outcome.safe_error _
  · next delim u =>
    split
    · split
      · exact Outcome.safe_error _
      next stop hstop =>
      have hle : stop+2≤u.length := index_le hstop
      refine (safe_checkedSlice (by omega) (by simp only [length_cons]; omega)).bind ?_
      refine fun text _ => (safe_delimitedMember c delim text).bind fun m _ => ?_
      refine Outcome.safe_ok ?_
      simp only [length_drop,length_cons]
      omega
    · exact safe_readSingle unicode (cons_ne_nil _ _)
  · next hne _ => exact safe_readSingle unicode hne

theorem safe_add (out : ElementBracket) (m : ElementMember) : (out.add m).Safe fun _ => True := by
  unfold ElementBracket.add
  split
  · split
    · exact Outcome.safe_ok trivial
    · split
      · exact Outcome.safe_ok trivial
      · exact Outcome.safe_error _
  · exact Outcome.safe_ok trivial

theorem safe_rangeTexts (m n : ElementMember) : (rangeTexts c m n).Safe fun _ => True := by
  unfold rangeTexts
  split
  · exact Outcome.safe_error _
  split
  · split
    · exact Outcome.safe_error _
    · exact Outcome.safe_ok trivial
  · exact Outcome.safe_error _

theorem safe_elementMembers {fuel : ℕ} {first : Bool} (hfuel : t.length<fuel)
    (out : ElementBracket) :
    (elementMembers c unicode fuel first t out).Safe fun r => r.2.length<t.length := by
  induction fuel generalizing first t out with
  | zero => omega
  | succ fuel ih =>
    cases t with
    | nil => exact Outcome.safe_error _
    | cons b t =>
      rw [elementMembers]
      split
      · exact Outcome.safe_ok (by simp)
      refine (safe_readMember c unicode (b::t)).bind ?_
      rintro ⟨m,rest⟩ hrest
      -- every way to go on is from a text that a member has made shorter
      have hgo : ∀{rest' : Bytes} (out : ElementBracket),rest'.length≤rest.length→
          (elementMembers c unicode fuel false rest' out).Safe
            fun r => r.2.length<(b::t).length :=
        fun out hle => (ih (by simp only [length_cons] at *; omega) out).mono
          fun r hr => by simp only at *; omega
      dsimp only
      split
      · next d u =>
        have hsub : (d::u).length≤(45::d::u).length := by simp
        split
        · refine (safe_readMember c unicode (d::u)).bind ?_
          rintro ⟨n,rest'⟩ hrest'
          refine (safe_rangeTexts c m n).bind fun texts _ => hgo _ ?_
          omega
        · exact (safe_add out m).bind fun out _ => hgo out le_rfl
      · exact (safe_add out m).bind fun out _ => hgo out le_rfl

theorem safe_parseElementBracket {pattern : Bytes} (hne : pattern≠[]) :
    (parseElementBracket pattern c unicode).Safe fun r => 0<r.2 ∧ r.2≤pattern.length := by
  have hlen := length_opened hne
  unfold parseElementBracket
  generalize opened pattern=o at hlen
  refine (safe_elementMembers c unicode (Nat.lt_succ_self _) _).bind fun r hr => ?_
  refine Outcome.safe_ok ?_
  split at hlen <;> omega

end

section
variable (host : Host)

theorem safe_classContents (names : List Bytes) :
    (classContents host names).Safe fun _ => True := by
  induction names with
  | nil => exact Outcome.safe_ok trivial
  | cons name names ih =>
    rw [classContents]
    split
    · exact Outcome.safe_error _
    · exact ih.bind fun _ _ => Outcome.safe_ok trivial

theorem safe_unicodeElementBracket {pattern : Bytes} (hne : pattern≠[]) (c : Collation) :
    (unicodeElementBracket host pattern c).Safe fun r => 0<r.2 ∧ r.2≤pattern.length :=
  (safe_parseElementBracket c true hne).bind fun r hr =>
    (safe_classContents host r.1.classes).bind fun _ _ => Outcome.safe_ok hr

/-- In no mode is there a fault but at a `[:]` of the expression, which ends within the text. -/
theorem translateBracketMode_sound (hne : s≠[]) (cutf8 : Bool)
    (tables : Option Tables) : (translateBracketMode host s cutf8 tables=.fault→SharesColon s) ∧
      ∀cls n,translateBracketMode host s cutf8 tables=.ok (cls,n)→0<n ∧ n ≤ s.length := by
  unfold translateBracketMode
  split
  · next c _ =>
    have hsafe := safe_unicodeElementBracket host hne c
    exact ⟨fun h => absurd h hsafe.ne_fault,fun cls n h => hsafe.post _ h⟩
  have hlen := length_opened hne
  unfold SharesColon
  generalize opened s=o at hlen
  obtain ⟨negated,t⟩ := o
  cases negated with
  | true =>
    simp only [if_true] at hlen ⊢
    obtain ⟨hfault,hok⟩ := @members_sound host cutf8 tables s (s.length+1) 2 true t (ascii "[^")
      (by omega)
    exact ⟨hfault,fun cls n h => by have := hok cls n h; omega⟩
  | false =>
    simp only [Bool.false_eq_true,if_false] at hlen ⊢
    obtain ⟨hfault,hok⟩ := @members_sound host cutf8 tables s (s.length+1) 1 true t (ascii "[")
      (by omega)
    exact ⟨hfault,fun cls n h => by have := hok cls n h; omega⟩

/-- A plain bracket expression faults exactly at a `[:]`. -/
theorem translateBracket_fault_iff (s : Bytes) :
    translateBracket host s=.fault ↔ SharesColon s := by
  obtain rfl | hne := eq_or_ne s []
  · constructor
    · intro h
      cases h
    · rintro (_ | ⟨-,hmember,-⟩)
      cases hmember
  · refine ⟨(translateBracketMode_sound host hne false none).1,fun h => ?_⟩
    have hlen := length_opened hne
    have hfuel : (opened s).2.length<s.length+1 := by split at hlen <;> omega
    rw [translateBracket,translateBracketMode]
    simp only [Option.bind_none]
    split <;> exact members_complete host none s hfuel h

/-- A plain bracket expression that is read ends at the `]` behind its members. -/
theorem translateBracket_closes {t cls : Bytes} {n : ℕ}
    (h : translateBracket host (91::t)=.ok (cls,n)) :
    Closes true (opened (91::t)).2 ((91::t).drop n) := by
  rw [translateBracket,translateBracketMode] at h
  simp only [Option.bind_none] at h
  have hdrop : (91::t).drop (if (opened (91::t)).1 then 2 else 1)=(opened (91::t)).2 := by
    rw [opened,drop_one,tail_cons]
    split <;> rfl
  have hlen := length_opened (cons_ne_nil 91 t)
  have hfuel : (opened (91::t)).2.length<(91::t).length+1 := by split at hlen <;> omega
  split at h
  · next hneg =>
    obtain ⟨hlt,-,hcloses⟩ := (members_sound host false none _ hfuel).2 _ _ h
    rw [if_pos hneg] at hdrop
    rw [←hdrop] at hcloses ⊢
    rwa [drop_drop,show 2+(n-2)=n by omega] at hcloses
  · next hneg =>
    obtain ⟨hlt,-,hcloses⟩ := (members_sound host false none _ hfuel).2 _ _ h
    rw [if_neg hneg] at hdrop
    rw [←hdrop] at hcloses ⊢
    rwa [drop_drop,show 1+(n-1)=n by omega] at hcloses

end

end Coreutils.BreBracket
