import Coreutils.GoText
import Mathlib.Data.List.TakeDrop

/-!
# Increments of at times

`splitIncrement` takes the count and the unit of an increment off a time operand and
`applyIncrement` adds them to an instant. The count and the length are machine integers.
-/

namespace Coreutils.AtIncrements
open List GoText

/-- A `time.Time` in UTC: the seconds since the start of its calendar and the rest. -/
structure Time where
  sec : ℤ
  nsec : ℤ
  deriving DecidableEq,Repr

structure Time.Valid (t : Time) : Prop where
  sec : -2^63≤t.sec ∧ t.sec<2^63
  nsec : 0≤t.nsec ∧ t.nsec<10^9

/-- `Time.Add`: seconds beyond the range stop at its end. -/
def Time.add (t : Time) (d : ℤ) : Time :=
  let sum := t.sec+(t.nsec+d)/10^9
  ⟨if -2^63 ≤ sum ∧ sum<2^63 then sum else if 0<d then 2^63-1 else -(2^63-1),(t.nsec+d)%10^9⟩

/-- `Time.AddDate` with days only: the seconds of the new date wrap. -/
def Time.addDays (t : Time) (n : ℤ) : Time := ⟨wrap64 (t.sec+n*86400),t.nsec⟩

inductive Span where
  | minute
  | hour
  | day
  | week
  | month
  | year
  deriving DecidableEq,Repr

/-- The cases of `applyIncrement`, which cuts a final `s` off the unit. -/
def spanOf (unit : Bytes) : Option Span :=
  let unit := if unit.getLast?=some 115 then unit.dropLast else unit
  if unit=ascii "minute" then some .minute
  else if unit=ascii "hour" then some .hour
  else if unit=ascii "day" then some .day
  else if unit=ascii "week" then some .week
  else if unit=ascii "month" then some .month
  else if unit=ascii "year" then some .year
  else none

structure AtIncrement where
  n : ℤ
  unit : Bytes
  deriving DecidableEq,Repr

/-- `unicode.IsSpace`. -/
def isSpace (r : ℕ) : Bool :=
  (9≤r && r≤13) || (0x2000≤r && r≤0x200A) ||
    [0x20,0x85,0xA0,0x1680,0x2028,0x2029,0x202F,0x205F,0x3000].contains r

/-- The runes of a text as their bytes; the number is fuel. -/
def runes : ℕ→Bytes→List Bytes
  | 0,_ => []
  | fuel+1,s =>
    let size := (decodeRune s).2
    if s=[] then [] else s.take size::runes fuel (s.drop size)

/-- `strings.TrimSpace`; the last rune of a text is the last one of its runes from the front. -/
def trimSpace (s : Bytes) : Bytes :=
  let trimLeft (rs : List Bytes) := rs.dropWhile fun r => isSpace (decodeRune r).1
  (trimLeft (trimLeft (runes s.length s)).reverse).reverse.flatten

/-- `strings.ToLower` of a unit. Of what the expressions take for ASCII letters, the Kelvin sign has
a small k, and the long s is small. -/
def toLower : Bytes→Bytes
  | 0xE2::0x84::0xAA::s => 107::toLower s
  | c::s => (if 65≤c ∧ c≤90 then c+32 else c)::toLower s
  | [] => []

/-- A word under `(?i)`; s and k fold with the long s and the Kelvin sign. -/
def foldsTo : Bytes→Bytes→Bool
  | [],t => t == []
  | c::w,t =>
    (t.take 1 == [c] || t.take 1 == [c-32]) && foldsTo w (t.drop 1) ||
      c == 115 && t.take 2 == [0xC5,0xBF] && foldsTo w (t.drop 2) ||
      c == 107 && t.take 3 == [0xE2,0x84,0xAA] && foldsTo w (t.drop 3)

def isUnit (t : Bytes) : Bool :=
  ["minute","minutes","hour","hours","day","days","week","weeks","month","months","year",
    "years"].any fun w => foldsTo (ascii w) t

/-- The submatches of `(?i)^(.*)\+\s*([0-9]+)\s*(unit)\s*$`. The sign is the last one. -/
def incrementRe (s : Bytes) : Option (Bytes×Bytes×Bytes) :=
  match s.reverse.dropWhile (·≠43) with
  | [] => none
  | _::base =>
    let rest := (s.reverse.takeWhile (·≠43)).dropWhile isReSpace
    let (count,unit) := (rest.reverse.dropWhile isReSpace).span isDigit
    let unit := unit.dropWhile isReSpace
    if newline∈base ∨ count=[] ∨ isUnit unit=false then none else some (base.reverse,count,unit)

/-- The submatches of `(?i)^(.*)\bnext\s+(unit)\s*$`, read from the end. -/
def nextIncrementRe (s : Bytes) : Option (Bytes×Bytes) :=
  let (unit,rest) := (s.reverse.dropWhile isReSpace).span (!isReSpace ·)
  let word := rest.dropWhile isReSpace
  let base := word.drop 4
  if isUnit unit.reverse=true ∧ foldsTo (ascii "next") (word.take 4).reverse=true ∧
      base.head?.all (!isWordByte ·)=true ∧ newline∉base then
    some (base.reverse,unit.reverse)
  else none

/-- `%q` of `fmt`, and `Time.AddDate` with years and months. -/
structure Host where
  quote : Bytes→Bytes
  addDate : ℤ→ℤ→Time→Time

section
variable (host : Host)

def invalidIncrement (s : Bytes) : Bytes := ascii "invalid increment in timespec " ++ host.quote s

def splitIncrement (s : Bytes) : Except Bytes (Bytes×Option AtIncrement) :=
  match nextIncrementRe s with
  | some (base,unit) =>
    let base := trimSpace base
    .ok (if base=[] then ascii "now" else base,some ⟨1,toLower unit⟩)
  | none =>
    if 43∉s then .ok (trimSpace s,none)
    else
      match incrementRe s with
      | none => .error (invalidIncrement host s)
      | some (base,count,unit) =>
        if trimSpace base=[] then .error (invalidIncrement host s)
        else
          match atoi? count with
          | none => .error (invalidIncrement host s)
          | some n =>
            if n≤0 then .error (invalidIncrement host s)
            else .ok (trimSpace base,some ⟨n,toLower unit⟩)

def applyIncrement (t : Time) : Option AtIncrement→Time
  | none => t
  | some inc =>
    match spanOf inc.unit with
    | some .minute => t.add (wrap64 (inc.n*(60*10^9)))
    | some .hour => t.add (wrap64 (inc.n*(3600*10^9)))
    | some .day => t.addDays inc.n
    | some .week => t.addDays (wrap64 (7*inc.n))
    | some .month => host.addDate 0 inc.n t
    | some .year => host.addDate inc.n 0 t
    | none => t

end

/-- The units of a fixed length. -/
def Span.seconds? : Span→Option ℤ
  | .minute => some 60
  | .hour => some 3600
  | .day => some 86400
  | .week => some 604800
  | _ => none

/-- The instant exists, and for minutes and hours so does the length in nanoseconds. -/
def Fits (t : Time) (n sec : ℤ) : Prop := t.sec+n*sec<2^63 ∧ (sec<86400→n*sec*10^9<2^63)

section
variable {t : Time} {n sec : ℤ}

theorem add_eq_iff (ht : t.Valid) (hsec : 0<sec) : t.add (wrap64 (sec*10^9))=⟨t.sec+sec,t.nsec⟩ ↔
    t.sec+sec<2^63 ∧ sec*10^9<2^63 := by
  obtain ⟨⟨h₀,h₁⟩,h₂,h₃⟩ := ht
  rw [Time.add,Time.mk.injEq]
  by_cases hfit : sec*10^9<2^63
  · rw [wrap64_of_range (by omega) hfit]
    split_ifs <;> omega
  -- a product that does not fit comes out at least `2^64` too small
  have hwrap : wrap64 (sec*10^9) ≤ sec*10^9-2^64 := by
    unfold wrap64
    omega
  split_ifs <;> omega

theorem wrapped_eq_iff (ht : t.Valid) (hsec : 0<sec) :
    (⟨wrap64 (t.sec+sec),t.nsec⟩ : Time)=⟨t.sec+sec,t.nsec⟩ ↔ t.sec+sec<2^63 := by
  obtain ⟨⟨h₀,h₁⟩,-⟩ := ht
  simp only [wrap64,Time.mk.injEq,and_true]
  omega

theorem applyIncrement_eq_iff (host : Host) (ht : t.Valid) (hn : 0<n) {unit : Bytes}
    (hunit : (spanOf unit).bind Span.seconds?=some sec) :
    applyIncrement host t (some ⟨n,unit⟩)=⟨t.sec+n*sec,t.nsec⟩ ↔ Fits t n sec := by
  obtain ⟨span,hspan,hsec⟩ := Option.bind_eq_some_iff.mp hunit
  unfold applyIncrement Fits
  cases span with
  | minute | hour =>
    cases hsec
    simp only [hspan,←mul_assoc]
    rw [add_eq_iff ht (by omega)]
    simp
  | day =>
    cases hsec
    simp [hspan,Time.addDays,wrapped_eq_iff ht (show 0<n*86400 by omega)]
  | week =>
    cases hsec
    have hweek : wrap64 (t.sec+wrap64 (7*n)*86400)=wrap64 (t.sec+n*604800) := by
      unfold wrap64
      omega
    simp [hspan,Time.addDays,hweek,wrapped_eq_iff ht (show 0<n*604800 by omega)]
  | month | year => cases hsec

end

section
variable {s base count unit : Bytes} {sec : ℤ}

theorem incrementRe_some (h : incrementRe s=some (base,count,unit)) :
    43∈s ∧ count≠[] ∧ count.all isDigit=true := by
  simp only [incrementRe,span_eq_takeWhile_dropWhile] at h
  split at h
  · cases h
  rename_i c base' heq
  have hmem : c∈s := by
    have := dropWhile_subset _ (heq ▸ mem_cons_self : c∈s.reverse.dropWhile (·≠43))
    simpa using this
  have hsign : c=43 := by
    have := head?_dropWhile_not (·≠43) s.reverse
    rw [heq] at this
    simpa using this
  split_ifs at h with hno
  obtain ⟨-,rfl,-⟩ := h
  rw [not_or,not_or] at hno
  exact ⟨hsign ▸ hmem,hno.2.1,all_takeWhile⟩

/-- The operand ends in a sign, a decimal count that is not zero and a unit of a fixed length. -/
structure Written (s base count unit : Bytes) (sec : ℤ) : Prop where
  next : nextIncrementRe s=none
  parts : incrementRe s=some (base,count,unit)
  pos : 0<decimal count
  unit : (spanOf (toLower unit)).bind Span.seconds?=some sec

theorem atoi?_digits (h : count≠[] ∧ count.all isDigit=true) :
    atoi? count=if decimal count<2^63 then some (decimal count : ℤ) else none := by
  obtain ⟨c,cs,rfl⟩ := exists_cons_of_ne_nil h.1
  have hsign : signed (c::cs)=(false,c::cs) := by
    have hc : isDigit c=true := all_eq_true.mp h.2 c mem_cons_self
    rw [signed,if_neg,if_neg] <;> rintro rfl <;> simp [isDigit] at hc
  simp only [atoi?,hsign,Bool.false_eq_true,if_false]
  split_ifs <;> simp_all
  omega

variable (host : Host)

theorem splitIncrement_written (h : Written s base count unit sec) : splitIncrement host s =
    if trimSpace base≠[] ∧ decimal count<2^63 then
      .ok (trimSpace base,some ⟨decimal count,toLower unit⟩)
    else .error (invalidIncrement host s) := by
  have hpos := h.pos
  obtain ⟨hplus,hdigits⟩ := incrementRe_some h.parts
  simp only [splitIncrement,h.next,hplus,h.parts,atoi?_digits hdigits,not_true_eq_false]
  by_cases hbase : trimSpace base=[]
  · simp [hbase]
  · simp only [hbase,if_false,ne_eq,not_false_eq_true,true_and]
    split_ifs
    · exact if_neg (by omega)
    · rfl

/-- An accepted operand gives the instant that many units later exactly if the count and its length
fit in the integers of the source. -/
theorem increment_exact_iff {t : Time} (ht : t.Valid) (h : Written s base count unit sec) :
    (∀rest inc,splitIncrement host s=.ok (rest,inc)→
      applyIncrement host t inc=⟨t.sec+decimal count*sec,t.nsec⟩ ∧
        t.sec<(applyIncrement host t inc).sec) ↔
      trimSpace base=[] ∨ 2^63≤decimal count ∨ Fits t (decimal count) sec := by
  have hiff := applyIncrement_eq_iff host ht (Int.natCast_pos.mpr h.pos) h.unit
  have hsec : 0<sec := by
    obtain ⟨span,-,hs⟩ := Option.bind_eq_some_iff.mp h.unit
    cases span <;> cases hs <;> decide
  rw [splitIncrement_written host h]
  split_ifs with hok
  · simp only [Except.ok.injEq,Prod.mk.injEq]
    constructor
    · intro hall
      exact Or.inr (Or.inr (hiff.mp (hall _ _ ⟨rfl,rfl⟩).1))
    · rintro hcond rest inc ⟨rfl,rfl⟩
      have hfits := (hcond.resolve_left hok.1).resolve_left (not_le.mpr hok.2)
      rw [hiff.mpr hfits]
      exact ⟨rfl,lt_add_of_pos_right _ (Int.mul_pos (Int.natCast_pos.mpr h.pos) hsec)⟩
  · refine iff_of_true (fun _ _ herr => nomatch herr) ?_
    by_cases hbase : trimSpace base=[]
    · exact Or.inl hbase
    · exact Or.inr (Or.inl (not_lt.mp fun hlt => hok ⟨hbase,hlt⟩))

end

def plainHost : Host where
  quote s := 34::s++[34]
  addDate _ _ t := t

example : nextIncrementRe (ascii "noon Next week ")=some (ascii "noon ",ascii "week") := by decide
example : incrementRe (ascii "1+2 + 3days")=some (ascii "1+2 ",ascii "3",ascii "days") := by decide

/-- A quarter of an hour. -/
theorem increment_exact_quarter : splitIncrement plainHost (ascii "now + 15 Minutes") =
        .ok (ascii "now",some ⟨15,ascii "minutes"⟩) ∧
      applyIncrement plainHost ⟨63900000000,5⟩ (some ⟨15,ascii "minutes"⟩)=⟨63900000900,5⟩ := by
  have ht : Time.Valid ⟨63900000000,5⟩ := ⟨by decide,by decide⟩
  have hw : Written (ascii "now + 15 Minutes") (ascii "now ") (ascii "15") (ascii "Minutes") 60 :=
    ⟨by decide,by decide,by decide,by decide⟩
  have hsplit : splitIncrement plainHost (ascii "now + 15 Minutes") =
      .ok (ascii "now",some ⟨15,ascii "minutes"⟩) := by decide
  exact ⟨hsplit,((increment_exact_iff _ ht hw).mpr (.inr (.inr ⟨by decide,by decide⟩)) _ _
    hsplit).1⟩

/-- Two hundred million minutes are four centuries and end in the past. -/
theorem not_increment_exact : splitIncrement plainHost (ascii "now + 200000000 Minutes") =
        .ok (ascii "now",some ⟨200000000,ascii "minutes"⟩) ∧
      applyIncrement plainHost ⟨63900000000,0⟩ (some ⟨200000000,ascii "minutes"⟩) =
        ⟨57453255926,290448384⟩ := by
  decide

end Coreutils.AtIncrements
