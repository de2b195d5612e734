import Coreutils.BreTranslate

/-!
# The parser of the backtracking matcher

`compileBackrefMode` of `pkg/bre/regexp.go`: the tree of a basic or extended expression. The state
holds what is left of the pattern.
-/

namespace Coreutils.BreParser
open List BreBracket BreMatcher BreText BreTranslate Faults GoText

structure Mode where
  ignoreCase : Bool
  dotAll : Bool
  extended : Bool
  cutf8 : Bool
  tables : Option Tables

/-- The state of a `parser`: what is left, the number of groups and the groups that are closed. -/
structure Parser where
  rest : Bytes
  groups : Fin 10
  closed : Fin 10→Bool

structure Atom where
  node : Node
  state : Pos
  quantifiable : Bool
  parser : Parser

section
variable (m : Mode)

def afterAlt (t : Bytes) : Option Bytes :=
  match m.extended,t with
  | true,124::u | false,92::124::u => some u
  | _,_ => none

def afterGroup (t : Bytes) : Option Bytes :=
  match m.extended,t with
  | true,41::u | false,92::41::u => some u
  | _,_ => none

def endsSeq (t : Bytes) : Bool := (afterAlt m t).isSome || (afterGroup m t).isSome

def dollarAnchors (t : Bytes) : Bool := if m.extended then endsEREBranch t else endsBranch t

/-- A literal, after which `t` is left. -/
def literalAtom (p : Parser) (lit t : Bytes) : Atom :=
  ⟨.literal lit m.ignoreCase,.atom,true,{ p with rest := t }⟩

def parseEscape (p : Parser) (n : UInt8) (u : Bytes) : Outcome Message Atom :=
  let q := { p with rest := u }
  if n=41 ∧ !m.extended then .ok (literalAtom m p [41] u)
  else if isGroupDigit n then
    let num := Fin.ofNat 10 (n.toNat-48)
    if p.groups<num ∨ !p.closed num then .error (sayWith "invalid back-reference \\" [n] "")
    else .ok ⟨.backref num m.ignoreCase,.atom,true,q⟩
  else if n=60 ∨ n=62 then .ok ⟨.wordEdge n,.anchor,false,q⟩
  else if n=98 ∨ n=66 then .ok ⟨.wordBoundary n,.anchor,false,q⟩
  else if n∈ascii "wWsS" then .ok ⟨.builtinClass n,.atom,true,q⟩
  else if n=123 then
    if m.extended then .ok (literalAtom m p [123] u)
    else .error (say "\\\x7b with nothing to repeat")
  else if n=125 then
    if m.extended then .ok (literalAtom m p [125] u) else .error (say "unmatched \\\x7d")
  else .ok (literalAtom m p (encodeRune n.toNat) u)

def parseByte (p : Parser) (state : Pos) (c : UInt8) (t : Bytes) : Outcome Message Atom :=
  let q := { p with rest := t }
  if c=46 then .ok ⟨.dot m.dotAll m.cutf8,.atom,true,q⟩
  else if c=94 then
    if state=.start then .ok ⟨.anchor 94,.anchor,false,q⟩ else .ok (literalAtom m p [94] t)
  else if c=36 then
    if dollarAnchors m t then .ok ⟨.anchor 36,.anchor,false,q⟩
    else .ok (literalAtom m p [36] t)
  else if c∈ascii "()*+?\x7b\x7d|" then .ok (literalAtom m p [c] t)
  else do
    let size := (decodeRune (c::t)).2
    let lit ← checkedSlice (c::t) 0 size
    return literalAtom m p lit ((c::t).drop size)

def maxElementBytes : ℕ :=
  match m.tables.bind Tables.elements with
  | none => 0
  | some c => c.elements.foldl (fun n e => max n e.text.length) 4

section
variable (host : Host)

def classNode (cls : Bytes) : Outcome Message Node :=
  let cls := if m.ignoreCase then ascii "(?i)" ++ cls else cls
  match host.compile (ascii "^" ++ cls++ascii "$") with
  | none => .error [.cause]
  | some re => .ok (.cls (maxElementBytes m) re m.cutf8)

def parseBracket (p : Parser) : Scan Atom := do
  let (cls,n) ← bracket host m.cutf8 m.tables p.rest
  let node ← Traced.lift (classNode m host cls)
  return ⟨node,.atom,true,{ p with rest := p.rest.drop n }⟩

/-- `parseQuant`: the node with the quantifier that follows it. -/
def parseQuant (atom : Node) (p : Parser) : Outcome Message (Node×Parser) :=
  let bounded (norm rest : Bytes) : Node×Parser :=
    (.rep atom (parseInterval norm).1 (parseInterval norm).2,{ p with rest })
  match p.rest,m.extended with
  | 42::t,_ => .ok (.rep atom 0 none,{ p with rest := t })
  | 43::t,true => .ok (.rep atom 1 none,{ p with rest := t })
  | 63::t,true => .ok (.rep atom 0 (some 1),{ p with rest := t })
  | 123::t,true => do
    let (norm,rest) ← ereInterval t
    return bounded norm rest
  | 92::43::t,false => .ok (.rep atom 1 none,{ p with rest := t })
  | 92::63::t,false => .ok (.rep atom 0 (some 1),{ p with rest := t })
  | 92::123::t,false => do
    let (norm,rest) ← breInterval t
    return bounded norm rest
  | _,_ => .ok (atom,p)

def quantified (a : Atom) : Outcome Message (Node×Parser) :=
  if a.quantifiable then parseQuant m a.node a.parser else .ok (a.node,a.parser)

section
variable (parseAtom : Parser→Pos→Scan Atom)

def parseSeqFrom : ℕ→Parser→Pos→List Node→Scan (Node×Parser)
  | 0,_,_,_ => Traced.lift .fault
  | fuel+1,p,state,nodes =>
    if p.rest=[] ∨ endsSeq m p.rest then pure (.seq nodes,p)
    else do
      let atom ← parseAtom p state
      let (node,q) ← Traced.lift (quantified m atom)
      parseSeqFrom fuel q atom.state (nodes++[node])

def parseSeq (p : Parser) : Scan (Node×Parser) :=
  parseSeqFrom m parseAtom (p.rest.length+1) p .start []

def parseExprFrom : ℕ→Parser→List Node→Scan (Node×Parser)
  | 0,_,_ => Traced.lift .fault
  | fuel+1,p,alts => do
    let (seq,q) ← parseSeq m parseAtom p
    match afterAlt m q.rest with
    | some t => parseExprFrom fuel { q with rest := t } (alts++[seq])
    | none => return (if alts=[] then seq else .alt (alts++[seq]),q)

def parseExpr (p : Parser) : Scan (Node×Parser) :=
  parseExprFrom m parseAtom (p.rest.length+1) p []

def parseInner (unmatched : String) (p : Parser) : Scan (Node×Parser) := do
  let (child,q) ← parseExpr m parseAtom p
  match afterGroup m q.rest with
  | none => Traced.throw (say unmatched)
  | some t => return (child,{ q with rest := t })

def parseGroup (tooMany unmatched : String) (p : Parser) (t : Bytes) : Scan Atom :=
  if h : p.groups.val+1<10 then do
    let num : Fin 10 := ⟨p.groups+1,h⟩
    let (child,q) ← parseInner m parseAtom unmatched { p with rest := t,groups := num }
    return ⟨.group num child,.atom,true,{ q with closed := Function.update q.closed num true }⟩
  else Traced.throw (say tooMany)

def parseBREGroup (p : Parser) (t : Bytes) : Scan Atom :=
  parseGroup m parseAtom "too many capture groups for BRE back-reference matcher" "unmatched \\("
    p t

/-- A group of an extended expression; `(?:` captures nothing. -/
def parseEREGroup (p : Parser) (t : Bytes) : Scan Atom :=
  match t with
  | 63::58::u => do
    let (child,q) ← parseInner m parseAtom "unmatched (?:" { p with rest := u }
    return ⟨child,.atom,true,q⟩
  | _ =>
    parseGroup m parseAtom "too many capture groups for ERE back-reference matcher" "unmatched ("
      p t

end

def parseAtom : ℕ→Parser→Pos→Scan Atom
  | 0,_,_ => Traced.lift .fault
  | depth+1,p,state =>
    match p.rest with
    | [] => Traced.lift .fault
    | [92] => Traced.throw (say "trailing backslash (\\)")
    | 92::n::u =>
      if n=40 ∧ !m.extended then parseBREGroup m (parseAtom depth) p u
      else Traced.lift (parseEscape m p n u)
    | 91::_ => parseBracket m host p
    | c::t =>
      if c=40 ∧ m.extended then parseEREGroup m (parseAtom depth) p t
      else Traced.lift (parseByte m p state c t)

/-- Only a leading `^` lets the search stop after one attempt. -/
def isAnchored : Node→Bool
  | .seq (.anchor c::_) => c == 94
  | _ => false

end

end

section
variable (host : Host)

def compileBackrefMode (pattern flags : Bytes) (extended cutf8 : Bool) (tables : Option Tables) :
    Scan Prog := do
  let m : Mode := ⟨flags.contains 105,flags.contains 115,extended,cutf8,tables⟩
  let p : Parser := ⟨pattern,0,fun _ => false⟩
  let (root,p) ← parseExpr m (parseAtom m host pattern.length) p
  if p.rest≠[] then Traced.throw [.text (ascii "unsupported BRE syntax near "),.quoted p.rest]
  else return {
    root
    groups := p.groups
    anchored := isAnchored root
    longest := false
    cutf8 }

def compileBackref (pattern flags : Bytes) (extended : Bool) : Scan Prog :=
  compileBackrefMode host pattern flags extended false none

end

inductive Occurs (x : Node) : Node→Prop where
  | self : Occurs x x
  | seq {nodes : List Node} {n : Node} (hn : n∈nodes) (h : Occurs x n) : Occurs x (.seq nodes)
  | alt {nodes : List Node} {n : Node} (hn : n∈nodes) (h : Occurs x n) : Occurs x (.alt nodes)
  | group {num : Fin 10} {child : Node} (h : Occurs x child) : Occurs x (.group num child)
  | rep {child : Node} {min : ℕ} {max : Option ℕ} (h : Occurs x child) :
      Occurs x (.rep child min max)

section
variable (m : Mode)

/-- The back-references of a tree compare as the mode has it. -/
def Keeps (node : Node) : Prop :=
  ∀num ignoreCase,Occurs (.backref num ignoreCase) node→ignoreCase=m.ignoreCase

variable {m}

variable {nodes : List Node}

theorem keeps_seq (h : ∀n∈nodes,Keeps m n) : Keeps m (.seq nodes) := by
  rintro num ignoreCase (_ | ⟨hn,hocc⟩)
  exact h _ hn num ignoreCase hocc

theorem keeps_alt (h : ∀n∈nodes,Keeps m n) : Keeps m (.alt nodes) := by
  rintro num ignoreCase (_ | _ | ⟨hn,hocc⟩)
  exact h _ hn num ignoreCase hocc

theorem Keeps.group {child : Node} (h : Keeps m child) (num : Fin 10) :
    Keeps m (.group num child) := by
  rintro num ignoreCase (_ | _ | _ | hocc)
  exact h num ignoreCase hocc

theorem Keeps.rep {child : Node} (h : Keeps m child) (min : ℕ) (max : Option ℕ) :
    Keeps m (.rep child min max) := by
  rintro num ignoreCase (_ | _ | _ | _ | hocc)
  exact h num ignoreCase hocc

theorem keeps_concat {n : Node} (h : ∀n∈nodes,Keeps m n) (hn : Keeps m n) :
    ∀n'∈nodes++[n],Keeps m n' :=
  forall_mem_append.mpr ⟨h,forall_mem_singleton.mpr hn⟩

end

section
variable (m : Mode) (host : Host)

theorem length_afterAlt {t u : Bytes} (h : afterAlt m t=some u) : u.length<t.length := by
  unfold afterAlt at h
  split at h
  · cases h
    simp
  · cases h
    simp only [length_cons]
    omega
  · cases h

theorem length_afterGroup {t u : Bytes} (h : afterGroup m t=some u) : u.length<t.length := by
  unfold afterGroup at h
  split at h
  · cases h
    simp
  · cases h
    simp only [length_cons]
    omega
  · cases h

theorem safe_parseEscape (p : Parser) (n : UInt8) (u : Bytes) :
    (parseEscape m p n u).Safe fun a => a.parser.rest.length≤u.length ∧ Keeps m a.node := by
  have hok : ∀{a : Atom},a.parser.rest=u→Keeps m a.node→
      (Outcome.ok a : Outcome Message _).Safe
        fun a => a.parser.rest.length≤u.length ∧ Keeps m a.node :=
    fun ha hkeeps => Outcome.safe_ok ⟨by simp [ha],hkeeps⟩
  have hliteral : ∀lit,(Outcome.ok (literalAtom m p lit u) : Outcome Message _).Safe
      fun a => a.parser.rest.length≤u.length ∧ Keeps m a.node :=
    fun lit => hok rfl (by rintro _ _ ⟨⟩)
  refine Outcome.safe_ite (fun _ => hliteral _) fun _ =>
    Outcome.safe_ite
      (fun _ => Outcome.safe_ite (fun _ => Outcome.safe_error _) fun _ => hok rfl ?_) fun _ =>
    Outcome.safe_ite (fun _ => hok rfl (by rintro _ _ ⟨⟩)) fun _ =>
    Outcome.safe_ite (fun _ => hok rfl (by rintro _ _ ⟨⟩)) fun _ =>
    Outcome.safe_ite (fun _ => hok rfl (by rintro _ _ ⟨⟩)) fun _ =>
    Outcome.safe_ite
      (fun _ => Outcome.safe_ite (fun _ => hliteral _) fun _ => Outcome.safe_error _) fun _ =>
    Outcome.safe_ite
      (fun _ => Outcome.safe_ite (fun _ => hliteral _) fun _ => Outcome.safe_error _) fun _ =>
    hliteral _
  rintro num ignoreCase ⟨⟩
  rfl

theorem safe_parseByte (p : Parser) (state : Pos) (c : UInt8) (t : Bytes) :
    (parseByte m p state c t).Safe fun a => a.parser.rest.length≤t.length ∧ Keeps m a.node := by
  have hok : ∀{a : Atom},a.parser.rest.length≤t.length→Keeps m a.node→
      (Outcome.ok a : Outcome Message _).Safe
        fun a => a.parser.rest.length≤t.length ∧ Keeps m a.node :=
    fun ha hkeeps => Outcome.safe_ok ⟨ha,hkeeps⟩
  have hliteral : ∀lit u,u.length≤t.length→
      (Outcome.ok (literalAtom m p lit u) : Outcome Message _).Safe
        fun a => a.parser.rest.length≤t.length ∧ Keeps m a.node :=
    fun lit u hu => hok hu (by rintro _ _ ⟨⟩)
  have hanchor : ∀c,Keeps m (.anchor c) := by rintro c _ _ ⟨⟩
  obtain ⟨hpos,hle⟩ := decodeRune_size (cons_ne_nil c t)
  refine Outcome.safe_ite (fun _ => hok le_rfl (by rintro _ _ ⟨⟩)) fun _ =>
    Outcome.safe_ite (fun _ => Outcome.safe_ite (fun _ => hok le_rfl (hanchor 94)) fun _ =>
      hliteral _ _ le_rfl) fun _ =>
    Outcome.safe_ite (fun _ => Outcome.safe_ite (fun _ => hok le_rfl (hanchor 36)) fun _ =>
      hliteral _ _ le_rfl) fun _ =>
    Outcome.safe_ite (fun _ => hliteral _ _ le_rfl) fun _ => ?_
  refine (safe_checkedSlice (Nat.zero_le _) hle).bind fun lit _ => hliteral lit _ ?_
  simp only [length_drop,length_cons]
  omega

theorem safe_classNode (cls : Bytes) : (classNode m host cls).Safe (Keeps m) := by
  unfold classNode
  dsimp only
  split
  · exact Outcome.safe_error _
  · exact Outcome.safe_ok (by rintro _ _ ⟨⟩)

theorem safe_parseQuant {atom : Node} (hatom : Keeps m atom) (p : Parser) :
    (parseQuant m atom p).Safe fun r => r.2.rest.length≤p.rest.length ∧ Keeps m r.1 := by
  obtain ⟨rest,groups,closed⟩ := p
  unfold parseQuant
  dsimp only
  split
  case h_4 | h_7 =>
    refine (safe_interval _ _ _ _ _).bind fun r hr => Outcome.safe_ok ⟨le_trans hr ?_,?_⟩
    · simp only [length_cons]
      omega
    · exact hatom.rep _ _
  case h_8 => exact Outcome.safe_ok ⟨le_rfl,hatom⟩
  all_goals
    refine Outcome.safe_ok ⟨?_,hatom.rep _ _⟩
    simp only [length_cons]
    omega

theorem safe_quantified {a : Atom} (ha : Keeps m a.node) :
    (quantified m a).Safe fun r => r.2.rest.length≤a.parser.rest.length ∧ Keeps m r.1 :=
  Outcome.safe_ite (fun _ => safe_parseQuant m ha a.parser) fun _ => Outcome.safe_ok ⟨le_rfl,ha⟩

/-! The parsers of groups, given one of atoms that panics as it should on texts up to a length. -/

section
variable {parse : Parser→Pos→Scan Atom} {d : ℕ}

/-- An atom takes a byte or more; its parser panics exactly at brackets that cannot be read. -/
def AtomsExact (parse : Parser→Pos→Scan Atom) (d : ℕ) : Prop :=
  ∀p state,p.rest≠[]→p.rest.length≤d→
    Traced.Exact (Faulty host m.cutf8 m.tables) (parse p state)
      fun a => a.parser.rest.length<p.rest.length ∧ Keeps m a.node

variable (hparse : AtomsExact m host parse d)
include hparse

variable {p : Parser}

theorem exact_parseSeqFrom {fuel : ℕ} (hd : p.rest.length≤d)
    (hfuel : p.rest.length<fuel) (state : Pos) {nodes : List Node} (hnodes : ∀n∈nodes,Keeps m n) :
    Traced.Exact (Faulty host m.cutf8 m.tables) (parseSeqFrom m parse fuel p state nodes)
      fun r => r.2.rest.length≤p.rest.length ∧ Keeps m r.1 := by
  induction fuel generalizing p state nodes with
  | zero => omega
  | succ fuel ih =>
    refine Traced.exact_ite (fun _ => Traced.exact_pure ⟨le_rfl,keeps_seq hnodes⟩) fun hrest => ?_
    rw [not_or] at hrest
    refine (hparse p state hrest.1 hd).bind fun a ha => ?_
    refine (Traced.exact_lift (safe_quantified m ha.2)).bind fun r hr => ?_
    have hlt : r.2.rest.length<p.rest.length := lt_of_le_of_lt hr.1 ha.1
    exact (ih (by omega) (by omega) _ (keeps_concat hnodes hr.2)).mono fun r' hr' =>
      ⟨le_trans hr'.1 hlt.le,hr'.2⟩

theorem exact_parseExprFrom {fuel : ℕ} (hd : p.rest.length≤d)
    (hfuel : p.rest.length<fuel) {alts : List Node} (halts : ∀n∈alts,Keeps m n) :
    Traced.Exact (Faulty host m.cutf8 m.tables) (parseExprFrom m parse fuel p alts)
      fun r => r.2.rest.length≤p.rest.length ∧ Keeps m r.1 := by
  induction fuel generalizing p alts with
  | zero => omega
  | succ fuel ih =>
    refine (exact_parseSeqFrom m host hparse hd (Nat.lt_succ_self _) _ (by simp)).bind
      fun r hr => ?_
    have hle : r.2.rest.length≤p.rest.length := hr.1
    have hconcat := keeps_concat halts hr.2
    dsimp only
    split
    · next t ht =>
      have hlt := length_afterAlt m ht
      refine (@ih { r.2 with rest := t } ?_ ?_ _ hconcat).mono fun r' hr' =>
        ⟨le_trans hr'.1 ?_,hr'.2⟩
      all_goals
        dsimp only
        omega
    · refine Traced.exact_pure ⟨hle,?_⟩
      split
      · exact hr.2
      · exact keeps_alt hconcat

theorem exact_parseInner (hd : p.rest.length≤d) (unmatched : String) :
    Traced.Exact (Faulty host m.cutf8 m.tables) (parseInner m parse unmatched p)
      fun r => r.2.rest.length<p.rest.length ∧ Keeps m r.1 := by
  refine (exact_parseExprFrom m host hparse hd (Nat.lt_succ_self _) (by simp)).bind fun r hr => ?_
  dsimp only
  split
  · exact Traced.exact_throw _
  · next t ht =>
    exact Traced.exact_pure ⟨lt_of_lt_of_le (length_afterGroup m ht) hr.1,hr.2⟩

theorem exact_parseGroup (tooMany unmatched : String) (p : Parser) {t : Bytes} (hd : t.length≤d) :
    Traced.Exact (Faulty host m.cutf8 m.tables) (parseGroup m parse tooMany unmatched p t)
      fun a => a.parser.rest.length<t.length ∧ Keeps m a.node := by
  unfold parseGroup
  split
  · refine (exact_parseInner m host hparse hd _).bind ?_
    exact fun r hr => Traced.exact_pure ⟨hr.1,hr.2.group _⟩
  · exact Traced.exact_throw _

theorem exact_parseEREGroup (p : Parser) {t : Bytes} (hd : t.length≤d) :
    Traced.Exact (Faulty host m.cutf8 m.tables) (parseEREGroup m parse p t)
      fun a => a.parser.rest.length<t.length ∧ Keeps m a.node := by
  unfold parseEREGroup
  split
  · next u =>
    have hlen : (63::58::u : Bytes).length=u.length+2 := rfl
    refine (exact_parseInner m host hparse ?_ _).bind fun r hr => ?_
    · dsimp only
      omega
    · refine Traced.exact_pure ⟨?_,hr.2⟩
      have hlt := hr.1
      dsimp only at hlt ⊢
      omega
  · exact exact_parseGroup m host hparse _ _ p hd

end

theorem exact_parseBracket {p : Parser} (hne : p.rest≠[]) :
    Traced.Exact (Faulty host m.cutf8 m.tables) (parseBracket m host p)
      fun a => a.parser.rest.length<p.rest.length ∧ Keeps m a.node := by
  refine (exact_bracket host m.cutf8 m.tables hne).bind fun r hr => ?_
  refine (Traced.exact_lift (safe_classNode m host r.1)).bind fun node hnode => ?_
  refine Traced.exact_pure ⟨?_,hnode⟩
  simp only [length_drop]
  omega

/-- Groups are nested no deeper than the pattern is long. -/
theorem exact_parseAtom (depth : ℕ) : AtomsExact m host (parseAtom m host depth) depth := by
  induction depth with
  | zero =>
    intro p state hne hd
    exact absurd (length_eq_zero_iff.mp (by omega)) hne
  | succ depth ih =>
    intro p state hne hd
    rw [parseAtom]
    split
    · next hrest => exact absurd hrest hne
    · exact Traced.exact_throw _
    · next n u hrest =>
      have hlen : p.rest.length=u.length+2 := by simp [hrest]
      refine Traced.exact_ite (fun _ => ?_) fun _ => ?_
      · refine (exact_parseGroup m host ih _ _ p ?_).mono fun a ha => ⟨?_,ha.2⟩
        all_goals omega
      · refine (Traced.exact_lift (safe_parseEscape m p n u)).mono fun a ha => ⟨?_,ha.2⟩
        omega
    · exact exact_parseBracket m host hne
    · next c t _ _ _ hrest =>
      have hlen : p.rest.length=t.length+1 := by simp [hrest]
      refine Traced.exact_ite (fun _ => ?_) fun _ => ?_
      · refine (exact_parseEREGroup m host ih p ?_).mono fun a ha => ⟨?_,ha.2⟩
        all_goals omega
      · refine (Traced.exact_lift (safe_parseByte m p state c t)).mono fun a ha => ⟨?_,ha.2⟩
        omega

/-- The compiler panics exactly at the brackets that cannot be read, and its back-references ignore
case where the flags say so. -/
theorem exact_compileBackrefMode (pattern flags : Bytes) (extended cutf8 : Bool)
    (tables : Option Tables) : Traced.Exact (Faulty host cutf8 tables)
      (compileBackrefMode host pattern flags extended cutf8 tables) fun prog =>
        ∀num ignoreCase,Occurs (.backref num ignoreCase) prog.root→
          ignoreCase=flags.contains 105 := by
  let m : Mode := ⟨flags.contains 105,flags.contains 115,extended,cutf8,tables⟩
  have hparse := exact_parseExprFrom m host (exact_parseAtom m host pattern.length)
    (p := ⟨pattern,0,fun _ => false⟩) le_rfl (Nat.lt_succ_self _)
    (show ∀n∈[],Keeps m n by simp)
  refine hparse.bind fun r hr => ?_
  exact Traced.exact_ite (fun _ => Traced.exact_throw _) fun _ => Traced.exact_pure hr.2

end

end Coreutils.BreParser
