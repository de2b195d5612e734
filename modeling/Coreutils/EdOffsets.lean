import Coreutils.EdAddress
import Mathlib.Data.Int.ModEq

/-!
# The arithmetic of ed addresses

An address is a base and offsets with decimal operands. Its value is an integer sum; `parseAddress`
cuts every operand to an `int` and adds with wrap-around.
-/

namespace Coreutils.EdOffsets
open List GoText EdText EdEngine EdAddress Programs

inductive Base where
  | number (ds : Bytes)
  | dot
  | last
  | mark (k : UInt8)
  deriving DecidableEq,Repr

def Base.text : Base→Bytes
  | .number ds => ds
  | .dot => [46]
  | .last => [36]
  | .mark k => [39,k]

def Base.WellFormed : Base→Prop
  | .number ds => ds≠[] ∧ ∀c∈ds,isDigit c=true
  | .mark k => 97≤k ∧ k≤122
  | _ => True

def Base.isNumber : Base→Bool
  | .number _ => true
  | _ => false

/-- An offset; `sign` is `some true` for a plus and `none` for a bare number. -/
structure Offset where
  blanks : Bytes := []
  sign : Option Bool
  operand : Bytes
  deriving DecidableEq,Repr

def signText : Option Bool→Bytes
  | none => []
  | some true => [43]
  | some false => [45]

def Offset.text (o : Offset) : Bytes := o.blanks++(signText o.sign++o.operand)

/-- An offset; a bare number that is not `free` needs a blank before it. -/
def Offset.WellFormed (free : Bool) (o : Offset) : Prop :=
  (∀c∈o.blanks,isBlank c=true) ∧ (∀c∈o.operand,isDigit c=true) ∧
    (o.sign=none → o.operand≠[] ∧ (o.blanks=[]→free))

def offsetsText (os : List Offset) : Bytes := (os.map Offset.text).flatten

theorem offsetsText_cons (o : Offset) (os : List Offset) :
    offsetsText (o::os)=o.text++offsetsText os := rfl

/-- Offsets in a row: after a number or an offset, a bare number needs a blank. -/
def Chain : Bool→List Offset→Prop
  | _,[] => True
  | free,o::os => o.WellFormed free ∧ Chain false os

def Ends (rest : Bytes) : Prop :=
  ∀c∈(skipBlank rest).head?,c≠43 ∧ c≠45 ∧ isDigit c=false

structure Address where
  base : Base
  offsets : List Offset
  rest : Bytes := []
  base_wf : base.WellFormed
  chain : Chain (!base.isNumber) offsets
  ends : Ends rest

def Address.text (a : Address) : Bytes := a.base.text++(offsetsText a.offsets++a.rest)

section
variable {W : Type} {c : UInt8} {rest : Bytes} {os : List Offset} {free : Bool}

/-- What an offset adds, with `num` reading its operand. -/
def Offset.delta (num : Bytes→ℤ) (o : Offset) : ℤ :=
  let n := if o.operand=[] then 1 else num o.operand
  if o.sign=some false then -n else n

def offsetsSum (num : Bytes→ℤ) (os : List Offset) : ℤ := (os.map (Offset.delta num)).sum

def Base.line? (num : Bytes→ℤ) (e : Engine W) : Base→Option ℤ
  | .number ds => some (num ds)
  | .dot => some e.buffer.current
  | .last => some e.buffer.last
  | .mark k => e.marks k

def Address.sum (num : Bytes→ℤ) (e : Engine W) (a : Address) : Option ℤ :=
  (a.base.line? num e).map (·+offsetsSum num a.offsets)

def Address.value (e : Engine W) (a : Address) : Option ℤ := a.sum (fun ds => decimal ds) e

def Address.clipped (e : Engine W) (a : Address) : Option ℤ := a.sum atoi e

/-- The line numbers of the engine are machine integers. -/
structure MachineInts (e : Engine W) : Prop where
  lines : e.buffer.last<2^63
  current : -2^63≤e.buffer.current ∧ e.buffer.current<2^63
  marks : ∀k,∀n∈e.marks k,-2^63≤n ∧ n<2^63

/-- The outcome for a line number: it has to be one of the buffer. -/
def outcome (e : Engine W) (a : Address) (n : Option ℤ) :
    EStateM.Result EdError (Engine W) (Option (ℤ×Bytes)) :=
  match n with
  | some n =>
    if n<0 ∨ e.buffer.last<n then .error (.message (ascii "invalid address")) e
    else .ok (some (n,skipBlank a.rest)) e
  | none => .error (.message (ascii "invalid address")) e

theorem skipBlank_append {blanks : Bytes} (h : ∀c∈blanks,isBlank c=true) (s : Bytes) :
    skipBlank (blanks++s)=skipBlank s :=
  dropWhile_append_of_pos h

theorem skipBlank_cons (h : isBlank c=false) (s : Bytes) : skipBlank (c::s)=c::s := by
  simp [skipBlank,h]

theorem isDigit_of_isBlank (h : isBlank c=true) : isDigit c=false := by
  have : c=32 ∨ c=9 := by simpa [isBlank] using h
  rcases this with rfl | rfl <;> rfl

theorem isBlank_of_isDigit (h : isDigit c=true) : isBlank c=false := by
  by_contra hblank
  rw [isDigit_of_isBlank (Bool.eq_true_of_not_eq_false hblank)] at h
  cases h

theorem noDigitHead_of_ends (h : Ends rest) : NoDigitHead rest := by
  intro c hc
  obtain _ | ⟨b,t⟩ := rest
  · cases hc
  obtain rfl : b=c := Option.some.inj hc
  cases hb : isBlank b with
  | true => exact isDigit_of_isBlank hb
  | false => exact (h b (by simp [skipBlank_cons hb])).2.2

/-- What follows a number inside an address does not continue the number. -/
theorem noDigitHead_offsets (hos : Chain false os)
    (hrest : Ends rest) : NoDigitHead (offsetsText os++rest) := by
  obtain _ | ⟨⟨blanks,sign,operand⟩,os⟩ := os
  · exact noDigitHead_of_ends hrest
  obtain ⟨⟨hblank,-,hbare⟩,-⟩ := hos
  obtain _ | ⟨b,blanks⟩ := blanks
  · match sign with
    | none => cases (hbare rfl).2 rfl
    | some true => exact noDigitHead_cons (by decide) _
    | some false => exact noDigitHead_cons (by decide) _
  · exact noDigitHead_cons (isDigit_of_isBlank (hblank b (by simp))) _

/-- One round of the offset loop takes one offset. -/
theorem parseOffsets_cons {o : Offset} (ho : o.WellFormed free) {s : Bytes}
    (hs : NoDigitHead s) (fuel : ℕ) (v : ℤ) :
    parseOffsets (fuel+1) v (o.text++s)=parseOffsets fuel (wrap64 (v+o.delta atoi)) s := by
  obtain ⟨blanks,sign,operand⟩ := o
  obtain ⟨hblank,hdigit,hbare⟩ := ho
  obtain ⟨htake,hdrop⟩ := span_digits hdigit hs
  rw [Offset.text,append_assoc,parseOffsets,skipBlank_append hblank]
  match sign with
  | some true | some false => simp [signText,skipBlank_cons,isBlank,htake,hdrop,Offset.delta]
  | none =>
    obtain ⟨hne,-⟩ := hbare rfl
    obtain ⟨d,ds,rfl⟩ := exists_cons_of_ne_nil hne
    have hd := hdigit d (by simp)
    have hsign : ¬ (d=43 ∨ d=45) := by rintro (rfl | rfl) <;> cases hd
    simp only [signText,nil_append,cons_append,skipBlank_cons (isBlank_of_isDigit hd),
      if_neg hsign,hd]
    rw [cons_append] at htake hdrop
    rw [htake,hdrop]
    rfl

theorem parseOffsets_end (h : Ends rest) {fuel : ℕ} (hfuel : 0<fuel) (v : ℤ) :
    parseOffsets fuel v rest=(v,skipBlank rest) := by
  obtain ⟨fuel,rfl⟩ := Nat.exists_eq_add_one.mpr hfuel
  rw [parseOffsets]
  rw [Ends] at h
  match skipBlank rest,h with
  | [],_ => rfl
  | c::t,h =>
    obtain ⟨hplus,hminus,hdigit⟩ := h c rfl
    simp [hplus,hminus,hdigit]

/-- The loop adds up the offsets, with wrap-around. -/
theorem parseOffsets_offsets (hos : Chain free os)
    (hrest : Ends rest) {fuel : ℕ} (hfuel : os.length<fuel) {v : ℤ}
    (hv : wrap64 v=v) : parseOffsets fuel v (offsetsText os++rest) =
      (wrap64 (v+offsetsSum atoi os),skipBlank rest) := by
  induction os generalizing free fuel v with
  | nil =>
    change parseOffsets fuel v rest=(wrap64 (v+0),skipBlank rest)
    rw [parseOffsets_end hrest hfuel,add_zero,hv]
  | cons o os ih =>
    obtain ⟨ho,hos⟩ := hos
    obtain ⟨fuel,rfl⟩ := Nat.exists_eq_add_one.mpr (Nat.zero_lt_of_lt hfuel)
    rw [offsetsText_cons,append_assoc,parseOffsets_cons ho (noDigitHead_offsets hos hrest),
      ih hos (Nat.lt_of_succ_lt_succ hfuel) (by simpa using wrap64_wrap64_add (v+o.delta atoi) 0),
      wrap64_wrap64_add,offsetsSum,offsetsSum,map_cons,sum_cons,add_assoc]

theorem length_le_offsetsText (hos : Chain free os) : os.length≤(offsetsText os).length := by
  induction os generalizing free with
  | nil => simp
  | cons o os ih =>
    obtain ⟨⟨-,-,hbare⟩,hos⟩ := hos
    have hpos : 0<o.text.length := by
      obtain ⟨blanks,sign,operand⟩ := o
      match sign with
      | some true | some false => simp [Offset.text,signText]
      | none =>
        have : 0<operand.length := length_pos_iff.mpr (hbare rfl).1
        simp only [Offset.text,length_append]
        omega
    have := ih hos
    rw [offsetsText_cons,length_append,length_cons]
    omega

variable (host : Host W) {e : Engine W}

theorem parseBase_text {b : Base} (hb : b.WellFormed) (s : Bytes)
    (hs : b.isNumber→NoDigitHead s) (e : Engine W) : parseBase host (skipBlank (b.text++s)) e =
      match b.line? atoi e with
      | some n => .ok (some (n,s)) e
      | none => .error (.message (ascii "invalid address")) e := by
  cases b with
  | number ds =>
    obtain ⟨hne,hdigit⟩ := hb
    obtain ⟨htake,hdrop⟩ := span_digits hdigit (hs rfl)
    obtain ⟨d,ds,rfl⟩ := exists_cons_of_ne_nil hne
    have hd := hdigit d (by simp)
    rw [Base.text,cons_append,skipBlank_cons (isBlank_of_isDigit hd)]
    rw [cons_append] at htake hdrop
    have hhead {c : UInt8} (hc : isDigit c=false) : d≠c := by
      rintro rfl
      cases hd.symm.trans hc
    simp only [parseBase,hhead (c := 39) rfl,hhead (c := 46) rfl,hhead (c := 36) rfl,
      hhead (c := 47) rfl,hhead (c := 63) rfl,hhead (c := 43) rfl,hhead (c := 45) rfl,hd,htake,
        hdrop]
    rfl
  | dot | last => rfl
  | mark k =>
    change parseBase host (39::k::s) e=_
    have hletter : 97≤k ∧ k≤122 := hb
    simp only [parseBase,if_true,Base.line?,hletter,and_self,run_get_bind]
    cases e.marks k <;> rfl

theorem wrap64_atoi (ds : Bytes) : wrap64 (atoi ds)=atoi ds := by
  apply wrap64_of_range <;> simp only [atoi,maxInt] <;> omega

theorem MachineInts.line (he : MachineInts e) {b : Base} {n : ℤ}
    (h : b.line? atoi e=some n) : wrap64 n=n := by
  cases b with
  | number ds =>
    obtain rfl := Option.some.inj h
    exact wrap64_atoi ds
  | dot =>
    obtain rfl := Option.some.inj h
    exact wrap64_of_range he.current.1 he.current.2
  | last =>
    obtain rfl := Option.some.inj h
    exact wrap64_of_range (by simp only [Buffer.last]; omega) he.lines
  | mark k => exact wrap64_of_range (he.marks k n h).1 (he.marks k n h).2

/-- `parseAddress` answers with the wrapped sum of the cut operands. -/
theorem parseAddress_text (he : MachineInts e) (a : Address) :
    parseAddress host a.text e=outcome e a ((a.clipped e).map wrap64) := by
  have hglue : a.base.isNumber→NoDigitHead (offsetsText a.offsets++a.rest) := by
    intro h
    have := a.chain
    rw [h] at this
    exact noDigitHead_offsets this a.ends
  have hbase := parseBase_text host a.base_wf _ hglue e
  rw [parseAddress,Address.text,Address.clipped,Address.sum]
  cases hline : a.base.line? atoi e with
  | none =>
    rw [hline] at hbase
    exact run_bind_error hbase
  | some n =>
    rw [hline] at hbase
    rw [run_bind_ok hbase]
    have hfuel : a.offsets.length<(offsetsText a.offsets++a.rest).length+1 := by
      have := length_le_offsetsText a.chain
      rw [length_append]
      omega
    simp only [parseOffsets_offsets a.chain a.ends hfuel (he.line hline),run_get_bind,
      Option.map_some,outcome]
    split <;> rfl

/-- The parser gives the exact value of an address of the buffer and refuses any other. -/
def Exact (e : Engine W) (a : Address) : Prop :=
  parseAddress host a.text e=outcome e a (a.value e)

/-- No line number but the exact value is the sum of the cut operands, up to wrap-around. -/
def Distinct (e : Engine W) (a : Address) : Prop :=
  ∀v∈a.value e,∀c∈a.clipped e,∀k,0≤k→k≤e.buffer.last→
    (k ≡ c [ZMOD 2^64] ↔ k=v)

theorem eq_wrap64_iff {k c : ℤ} (h₀ : -2^63≤k) (h₁ : k<2^63) : k=wrap64 c ↔ k ≡ c [ZMOD 2^64] := by
  simp only [wrap64,Int.ModEq]
  omega

theorem outcome_eq_iff (a : Address) (m n : ℤ) : outcome e a (some m)=outcome e a (some n) ↔
      ∀k,0≤k→k≤e.buffer.last→(k=m ↔ k=n) := by
  constructor
  · intro h k hk₀ hk₁
    simp only [outcome] at h
    split at h <;> split at h
    · omega
    · cases h
    · cases h
    · cases h
      rfl
  · intro h
    have hm := h m
    have hn := h n
    simp only [outcome]
    split <;> split
    · rfl
    · omega
    · omega
    · rw [(hm (by omega) (by omega)).mp rfl]

theorem line?_eq_none_iff (num num' : Bytes→ℤ) (e : Engine W) (b : Base) :
    b.line? num e=none ↔ b.line? num' e=none := by
  cases b <;> simp [Base.line?]

theorem exact_iff_distinct {e : Engine W} (he : MachineInts e) (a : Address) :
    Exact host e a ↔ Distinct e a := by
  rw [Exact,parseAddress_text host he,Distinct]
  cases hv : a.value e with
  | none =>
    have hline := Option.map_eq_none_iff.mp hv
    have hclip : a.clipped e=none :=
      Option.map_eq_none_iff.mpr ((line?_eq_none_iff _ _ e a.base).mp hline)
    simp [hclip]
  | some v =>
    cases hc : a.clipped e with
    | none =>
      have hline := Option.map_eq_none_iff.mp hc
      rw [Address.value,Address.sum,(line?_eq_none_iff _ _ e a.base).mp hline] at hv
      cases hv
    | some c =>
      rw [Option.map_some,outcome_eq_iff]
      have hlines := he.lines
      constructor
      · intro h v' hv' c' hc' k hk₀ hk₁
        cases hv'
        cases hc'
        rw [←eq_wrap64_iff (by omega) (by omega)]
        exact h k hk₀ hk₁
      · intro h k hk₀ hk₁
        rw [eq_wrap64_iff (by omega) (by omega)]
        exact h v rfl c rfl k hk₀ hk₁

end

def oneLine : Engine Unit where
  buffer := { lines := [ascii "a"],current := 1 }
  world := ()

theorem machineInts_oneLine : MachineInts oneLine where
  lines := by decide
  current := by decide
  marks := fun _ _ h => nomatch h

theorem wellFormed_plus {ds : Bytes} (h : ds.all isDigit) (free : Bool) :
    Offset.WellFormed free ⟨[],some true,ds⟩ := by
  refine ⟨?_,all_eq_true.mp h,?_⟩ <;> simp

/-- The address `.+9223372036854775807+9223372036854775807+2`, one above `2 ^ 64`. -/
def wrapped : Address where
  base := .dot
  offsets := [⟨[],some true,ascii "9223372036854775807"⟩,
    ⟨[],some true,ascii "9223372036854775807"⟩,⟨[],some true,ascii "2"⟩]
  base_wf := trivial
  chain := ⟨wellFormed_plus (by decide) _,wellFormed_plus (by decide) _,
    wellFormed_plus (by decide) _,trivial⟩
  ends := by simp [Ends,skipBlank]

theorem distinct_oneLine_wrapped :
    MachineInts oneLine ∧ ∀host : Host Unit,Exact host oneLine wrapped ↔ Distinct oneLine wrapped :=
  ⟨machineInts_oneLine,fun host => exact_iff_distinct host machineInts_oneLine wrapped⟩

theorem not_exact_wrapped : wrapped.value oneLine=some (2^64+1) ∧
    ¬ ∃host : Host Unit,Exact host oneLine wrapped := by
  have hvalue : wrapped.value oneLine=some (2^64+1) := by decide
  have hclipped : (wrapped.clipped oneLine).map wrap64=some 1 := by decide
  refine ⟨hvalue,?_⟩
  rintro ⟨host,h⟩
  rw [Exact,parseAddress_text host machineInts_oneLine,hvalue,hclipped,outcome_eq_iff] at h
  exact absurd ((h 1 (by decide) (by decide)).mp rfl) (by decide)

end Coreutils.EdOffsets
