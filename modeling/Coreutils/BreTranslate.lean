import Coreutils.BreBracket

/-!
# Translation to RE2

`toGo` and `toGoERE` of `pkg/bre/bre.go` and `ERERequiresBacktracking` of `regexp.go`. A scanner
keeps the texts at which it comes to a bracket expression: nothing else can panic.
-/

namespace Coreutils.BreTranslate
open List BreBracket BreMatcher BreText Faults GoText

/-- What a scanner does, with the texts at which it read a bracket expression. -/
abbrev Scan (α : Type) := Traced Bytes Message α

def endsBranch : Bytes→Bool
  | [] => true
  | 92::d::_ => d == 41 || d == 124
  | _ => false

/-- The switch of `toGo` after a backslash: the text it adds, the new state and the rest. -/
def toGoEscaped (state : Pos) (n : UInt8) (u : Bytes) : Outcome Message (Bytes×Pos×Bytes) :=
  if n=40 then .ok ([40],.start,u)
  else if n=41 then .ok ([41],.atom,u)
  else if n=124 then .ok ([124],.start,u)
  else if n=123 then
    if state≠.atom then .error (say "\\\x7b with nothing to repeat")
    else do
      let (norm,rest) ← breInterval u
      return ([123]++norm++[125],.atom,rest)
  else if n=125 then .error (say "unmatched \\\x7d")
  else if n=43 ∨ n=63 then
    if state≠.atom then .error (sayWith "\\" [n] " with nothing to repeat")
    else .ok ([n],state,u)
  else if isGroupDigit n then
    .error (sayWith "back-reference \\" [n] " is not supported (RE2 has no back-references)")
  else if n∈ascii "wWsSbB" then .ok ([92,n],.atom,u)
  else if n=60 ∨ n=62 then
    .error (sayWith "\\" [n] " word-edge anchor requires the BRE matcher")
  else if 0x80≤n then
    let (r,size) := decodeRune (n::u)
    .ok (encodeRune r,.atom,(n::u).drop size)
  else if isAlnumByte n then .error (sayWith "unsupported escape \\" [n] "")
  else .ok (quoteMeta [n],.atom,u)

def toGoEscape (state : Pos) (t : Bytes) : Outcome Message (Bytes×Pos×Bytes) :=
  match t with
  | [] => .error (say "trailing backslash (\\)")
  | n::u => toGoEscaped state n u

/-- The switch of `toGo` on a byte that is no backslash and no `[`, with what follows it. -/
def toGoByte (state : Pos) (c : UInt8) (t : Bytes) : Bytes×Pos :=
  if c=42 then if state=.atom then ([42],.atom) else ([92,42],.atom)
  else if c=94 then if state=.start then ([94],.anchor) else ([92,94],.atom)
  else if c=36 then if endsBranch t then ([36],.anchor) else ([92,36],.atom)
  else if c=46 then ([46],.atom)
  else if c∈ascii "()\x7b\x7d+?|" then (quoteMeta [c],.atom)
  else ([c],.atom)

section
variable (host : Host) (cutf8 : Bool) (tables : Option Tables)

/-- The reading of the bracket expression that starts here. -/
def bracket (s : Bytes) : Scan (Bytes×ℕ) :=
  Traced.call (fun s => translateBracketMode host s cutf8 tables) s

def toGoFrom : ℕ→Pos→Bytes→Bytes→Scan Bytes
  | 0,_,_,_ => Traced.lift .fault
  | _+1,_,[],b => pure b
  | fuel+1,state,c::t,b =>
    if c=92 then do
      let (text,state,rest) ← Traced.lift (toGoEscape state t)
      toGoFrom fuel state rest (b++text)
    else if c=91 then do
      let (cls,n) ← bracket host cutf8 tables (c::t)
      toGoFrom fuel .atom ((c::t).drop n) (b++cls)
    else
      let (text,state) := toGoByte state c t
      toGoFrom fuel state t (b++text)

def toGo (p : Bytes) : Scan Bytes := toGoFrom host cutf8 tables (p.length+1) .start p []

def endsEREBranch : Bytes→Bool
  | [] => true
  | d::_ => d == 41 || d == 124

def toGoEREInterval (state : Pos) (t : Bytes) : Outcome Message (Bytes×Bytes) :=
  if state≠.atom then .error (say "\x7b with nothing to repeat") else ereInterval t

/-- The switch of `toGoERE` on a byte that is no backslash, no `[` and no `\x7b`. -/
def toGoEREByte (state : Pos) (c : UInt8) (t : Bytes) : Bytes×Pos :=
  if c=94 then if state=.start then ([94],.anchor) else ([92,94],.atom)
  else if c=36 then if endsEREBranch t then ([36],.anchor) else ([92,36],.atom)
  else if c=40 ∨ c=124 then ([c],.start)
  else if c=41 then ([c],.atom)
  else if c=42 ∨ c=43 ∨ c=63 ∨ c=125 then ([c],state)
  else ([c],.atom)

def toGoEREEscape (t : Bytes) : Outcome Message (Bytes×Pos×Bytes) :=
  match t with
  | [] => .error (say "trailing backslash (\\)")
  | n::u =>
    if isGroupDigit n then
      .error (sayWith "back-reference \\" [n] " is not supported (RE2 has no back-references)")
    else if n=60 ∨ n=62 then .ok ([92,98],.anchor,u)
    else .ok ([92,n],.atom,u)

def toGoEREFrom : ℕ→Pos→Bytes→Bytes→Scan Bytes
  | 0,_,_,_ => Traced.lift .fault
  | _+1,_,[],b => pure b
  | fuel+1,state,c::t,b =>
    if c=91 then do
      let (cls,n) ← bracket host cutf8 tables (c::t)
      toGoEREFrom fuel .atom ((c::t).drop n) (b++cls)
    else if c=123 then do
      let (norm,rest) ← Traced.lift (toGoEREInterval state t)
      toGoEREFrom fuel .atom rest (b++[123]++norm++[125])
    else if c=92 then do
      let (text,state,rest) ← Traced.lift (toGoEREEscape t)
      toGoEREFrom fuel state rest (b++text)
    else
      let (text,state) := toGoEREByte state c t
      toGoEREFrom fuel state t (b++text)

def toGoERE (p : Bytes) : Scan Bytes := toGoEREFrom host cutf8 tables (p.length+1) .start p []

/-- The state after any other byte; `none` where a quantifier has nothing to repeat. -/
def ereByteState (state : Pos) (c : UInt8) (t : Bytes) : Option Pos :=
  if c=94 then some (if state=.start then .anchor else .atom)
  else if c=36 then some (if endsEREBranch t then .anchor else .atom)
  else if c=124 then some .start
  else if c=41 then some .atom
  else if c=42 ∨ c=43 ∨ c=63 then if state≠.atom then none else some .anchor
  else if c=125 then some state
  else some .atom

/-- `ERERequiresBacktracking` at a backslash that `t` follows: an answer, or the next state. -/
def ereEscapeState (t : Bytes) : Except Bool (Pos×Bytes) :=
  match t with
  | [] => .error false
  | n::u =>
    if isGroupDigit n then .error true
    else .ok (if n=60 ∨ n=62 ∨ n=98 ∨ n=66 then .anchor else .atom,u)

def ereOpened (t : Bytes) : Bytes :=
  match t with
  | 63::58::u => u
  | _ => t

/-- The loop of `ERERequiresBacktracking`. What it cannot read is left to `ToGoERE`. -/
def ereRequiresBacktrackingFrom : ℕ→Pos→Bytes→Scan Bool
  | 0,_,_ => Traced.lift .fault
  | _+1,_,[] => pure false
  | fuel+1,state,c::t =>
    if c=91 then do
      match ← Traced.attempt (translateBracket host) (c::t) with
      | .error _ => return false
      | .ok (_,n) => ereRequiresBacktrackingFrom fuel .atom ((c::t).drop n)
    else if c=92 then
      match ereEscapeState t with
      | .error answer => pure answer
      | .ok (state,rest) => ereRequiresBacktrackingFrom fuel state rest
    else if c=123 then
      match toGoEREInterval state t with
      | .ok (_,rest) => ereRequiresBacktrackingFrom fuel .anchor rest
      | .error _ => pure false
      | .fault => Traced.lift .fault
    else if c=40 then ereRequiresBacktrackingFrom fuel .start (ereOpened t)
    else
      match ereByteState state c t with
      | none => pure false
      | some state => ereRequiresBacktrackingFrom fuel state t

def ereRequiresBacktracking (p : Bytes) : Scan Bool :=
  ereRequiresBacktrackingFrom host (p.length+1) .start p

end

section
variable (host : Host) (cutf8 : Bool) (tables : Option Tables) {fuel : ℕ} {t : Bytes}

/-- The bracket expression that starts here cannot be read without a panic. -/
def Faulty (s : Bytes) : Prop := translateBracketMode host s cutf8 tables=.fault

theorem exact_bracket {s : Bytes} (hne : s≠[]) :
    Traced.Exact (Faulty host cutf8 tables) (bracket host cutf8 tables s)
      fun r => 0<r.2 ∧ r.2 ≤ s.length :=
  Traced.exact_call Iff.rfl fun r hr =>
    (translateBracketMode_sound host hne cutf8 tables).2 r.1 r.2 hr

/-- What is left after the escape of `n`: what follows `n`, no letter of a sed escape, or an
interval, or a rune that is not ASCII. -/
def EscapeLeaves (n : UInt8) (u rest : Bytes) : Prop :=
  (rest=u ∧ n∉ascii "ntrfva") ∨ (n=123 ∧ ∃norm,breInterval u=.ok (norm,rest)) ∨
    (0x80≤n ∧ rest=(n::u).drop (decodeRune (n::u)).2)

theorem safe_toGoEscaped (state : Pos) (n : UInt8) (u : Bytes) :
    (toGoEscaped state n u).Safe fun r => EscapeLeaves n u r.2.2 := by
  have hok : ∀{text : Bytes} {state : Pos},n∉ascii "ntrfva" →
      (Outcome.ok (text,state,u) : Outcome Message _).Safe fun r => EscapeLeaves n u r.2.2 :=
    fun hn => Outcome.safe_ok (.inl ⟨rfl,hn⟩)
  refine Outcome.safe_ite (fun h => hok (h ▸ by decide)) fun _ =>
    Outcome.safe_ite (fun h => hok (h ▸ by decide)) fun _ =>
    Outcome.safe_ite (fun h => hok (h ▸ by decide)) fun _ =>
    Outcome.safe_ite (fun h => Outcome.safe_ite (fun _ => Outcome.safe_error _) fun _ => ?_)
      fun _ =>
    Outcome.safe_ite (fun _ => Outcome.safe_error _) fun _ =>
    Outcome.safe_ite (fun h => Outcome.safe_ite (fun _ => Outcome.safe_error _) fun _ => hok ?_)
      fun _ =>
    Outcome.safe_ite (fun _ => Outcome.safe_error _) fun _ =>
    Outcome.safe_ite (fun h => hok ?_) fun _ =>
    Outcome.safe_ite (fun _ => Outcome.safe_error _) fun _ =>
    Outcome.safe_ite (fun h => Outcome.safe_ok (.inr (.inr ⟨h,rfl⟩))) fun _ =>
    Outcome.safe_ite (fun _ => Outcome.safe_error _) fun h => hok ?_
  · have hsafe := safe_interval "unmatched \\\x7b" "invalid interval \\\x7b" "\\\x7d" [92,125] u
    cases hinterval : breInterval u with
    | ok r => exact Outcome.safe_ok (.inr (.inl ⟨h,r.1,hinterval⟩))
    | error e => exact Outcome.safe_error e
    | fault => exact absurd hinterval hsafe.ne_fault
  · rcases h with rfl | rfl <;> decide
  · change n∈[119,87,115,83,98,66] at h
    simp only [mem_cons,not_mem_nil,or_false] at h
    rcases h with rfl | rfl | rfl | rfl | rfl | rfl <;> decide
  · intro hn
    change n∈[110,116,114,102,118,97] at hn
    simp only [mem_cons,not_mem_nil,or_false] at hn
    rcases hn with rfl | rfl | rfl | rfl | rfl | rfl <;> exact h (by decide)

theorem safe_toGoEscape (state : Pos) (t : Bytes) :
    (toGoEscape state t).Safe fun r => r.2.2.length≤t.length := by
  cases t with
  | nil => exact Outcome.safe_error _
  | cons n u =>
    refine (safe_toGoEscaped state n u).mono fun r hr => ?_
    rcases hr with ⟨hrest,-⟩ | ⟨-,norm,hinterval⟩ | ⟨-,hrest⟩
    · simp [hrest]
    · exact Nat.le_succ_of_le ((safe_interval _ _ _ _ u).post _ hinterval)
    · simp [hrest]

/-- The scanner of basic expressions panics exactly at the brackets that cannot be read. -/
theorem exact_toGoFrom (hfuel : t.length<fuel) (state : Pos) (b : Bytes) :
    Traced.Exact (Faulty host cutf8 tables) (toGoFrom host cutf8 tables fuel state t b)
      fun _ => True := by
  induction fuel generalizing t state b with
  | zero => omega
  | succ fuel ih =>
    cases t with
    | nil => exact Traced.exact_pure trivial
    | cons c t =>
      rw [length_cons] at hfuel
      refine Traced.exact_ite (fun _ => ?_) fun _ => Traced.exact_ite (fun _ => ?_) fun _ => ?_
      · refine (Traced.exact_lift (safe_toGoEscape state t)).bind fun r hr => ?_
        exact ih (lt_of_le_of_lt hr (by omega)) _ _
      · refine (exact_bracket host cutf8 tables (cons_ne_nil c t)).bind fun r hr => ?_
        refine ih ?_ _ _
        simp only [length_drop,length_cons] at hr ⊢
        omega
      · exact ih (by omega) _ _

theorem exact_toGo (p : Bytes) :
    Traced.Exact (Faulty host cutf8 tables) (toGo host cutf8 tables p) fun _ => True :=
  exact_toGoFrom host cutf8 tables (Nat.lt_succ_self _) _ _

theorem safe_toGoEREInterval (state : Pos) (t : Bytes) :
    (toGoEREInterval state t).Safe fun r => r.2.length≤t.length := by
  unfold toGoEREInterval
  split
  · exact Outcome.safe_error _
  · exact safe_interval _ _ _ _ t

theorem safe_toGoEREEscape (t : Bytes) : (toGoEREEscape t).Safe fun r => r.2.2.length≤t.length := by
  cases t with
  | nil => exact Outcome.safe_error _
  | cons n u =>
    exact Outcome.safe_ite (fun _ => Outcome.safe_error _) fun _ =>
      Outcome.safe_ite (fun _ => Outcome.safe_ok (by simp)) fun _ => Outcome.safe_ok (by simp)

theorem exact_toGoEREFrom (hfuel : t.length<fuel) (state : Pos) (b : Bytes) :
    Traced.Exact (Faulty host cutf8 tables) (toGoEREFrom host cutf8 tables fuel state t b)
      fun _ => True := by
  induction fuel generalizing t state b with
  | zero => omega
  | succ fuel ih =>
    cases t with
    | nil => exact Traced.exact_pure trivial
    | cons c t =>
      rw [length_cons] at hfuel
      refine Traced.exact_ite (fun _ => ?_) fun _ => Traced.exact_ite (fun _ => ?_) fun _ =>
        Traced.exact_ite (fun _ => ?_) fun _ => ?_
      · refine (exact_bracket host cutf8 tables (cons_ne_nil c t)).bind fun r hr => ?_
        refine ih ?_ _ _
        simp only [length_drop,length_cons] at hr ⊢
        omega
      · refine (Traced.exact_lift (safe_toGoEREInterval state t)).bind fun r hr => ?_
        exact ih (by omega) _ _
      · refine (Traced.exact_lift (safe_toGoEREEscape t)).bind fun r hr => ?_
        exact ih (lt_of_le_of_lt hr (by omega)) _ _
      · exact ih (by omega) _ _

theorem exact_toGoERE (p : Bytes) :
    Traced.Exact (Faulty host cutf8 tables) (toGoERE host cutf8 tables p) fun _ => True :=
  exact_toGoEREFrom host cutf8 tables (Nat.lt_succ_self _) _ _

theorem length_ereEscapeState {r : Pos×Bytes} (h : ereEscapeState t=.ok r) :
    r.2.length≤t.length := by
  cases t with
  | nil => cases h
  | cons n u =>
    rw [ereEscapeState] at h
    split at h
    · cases h
    · cases h
      simp

theorem length_ereOpened (t : Bytes) : (ereOpened t).length≤t.length := by
  unfold ereOpened
  split
  · simp only [length_cons]
    omega
  · exact le_rfl

theorem exact_ereRequiresBacktrackingFrom (hfuel : t.length<fuel) (state : Pos) :
    Traced.Exact (Faulty host false none) (ereRequiresBacktrackingFrom host fuel state t)
      fun _ => True := by
  induction fuel generalizing t state with
  | zero => omega
  | succ fuel ih =>
    cases t with
    | nil => exact Traced.exact_pure trivial
    | cons c t =>
      rw [length_cons] at hfuel
      refine Traced.exact_ite (fun _ => ?_) fun _ => Traced.exact_ite (fun _ => ?_) fun _ =>
        Traced.exact_ite (fun _ => ?_) fun _ => Traced.exact_ite (fun _ => ?_) fun _ => ?_
      · have hsound := (translateBracketMode_sound host (cons_ne_nil c t) false none).2
        have hattempt : Traced.Exact (Faulty host false none)
            (Traced.attempt (translateBracket host) (c::t))
            fun r => ∀a,r=.ok a→0<a.2 := by
          refine Traced.exact_attempt ?_ (by simp) fun a ha b hb => ?_
          · exact Iff.rfl
          · cases hb
            exact (hsound _ _ ha).1
        refine hattempt.bind fun r hr => ?_
        cases r with
        | error e => exact Traced.exact_pure trivial
        | ok a =>
          have hpos := hr a rfl
          refine ih ?_ _
          simp only [length_drop,length_cons]
          omega
      · cases h : ereEscapeState t with
        | error answer => exact Traced.exact_pure trivial
        | ok r =>
          have hr := length_ereEscapeState h
          exact ih (by omega) _
      · have hsafe := safe_toGoEREInterval state t
        cases h : toGoEREInterval state t with
        | ok r =>
          have hr := hsafe.post r h
          exact ih (by omega) _
        | error e => exact Traced.exact_pure trivial
        | fault => exact absurd h hsafe.ne_fault
      · have hopened := length_ereOpened t
        exact ih (by omega) _
      · cases ereByteState state c t with
        | none => exact Traced.exact_pure trivial
        | some state => exact ih (by omega) _

theorem exact_ereRequiresBacktracking (p : Bytes) :
    Traced.Exact (Faulty host false none) (ereRequiresBacktracking host p) fun _ => True :=
  exact_ereRequiresBacktrackingFrom host (Nat.lt_succ_self _) _

end

end Coreutils.BreTranslate
