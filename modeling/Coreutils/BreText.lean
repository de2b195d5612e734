import Coreutils.GoText
import Coreutils.Faults

/-!
# The text of regular expressions

The small parts of `pkg/bre/bre.go`: intervals, escapes and the states between atoms.
-/

namespace Coreutils.BreText
open Faults GoText

/-- A part of a message: a text, an argument of `%q` or of `%#02x`, or another package's error. -/
inductive Part where
  | text (s : Bytes)
  | quoted (s : Bytes)
  | hex (c : UInt8)
  | cause
  deriving DecidableEq,Repr

abbrev Message := List Part

def say (s : String) : Message := [.text (ascii s)]

def sayWith (before : String) (s : Bytes) (after : String) : Message :=
  [.text (ascii before++s++ascii after)]

/-- The slice `s[lo:hi]`; out of range it is a panic. -/
def checkedSlice (s : Bytes) (lo hi : ℕ) : Outcome Message Bytes :=
  if lo≤hi ∧ hi ≤ s.length then .ok ((s.take hi).drop lo) else .fault

variable {s : Bytes}

theorem checkedSlice_ok {lo hi : ℕ} (hle : lo≤hi) (hhi : hi ≤ s.length) :
    checkedSlice s lo hi=.ok ((s.take hi).drop lo) :=
  if_pos ⟨hle,hhi⟩

/-- `escapeClassRune`: a rune as a member of an RE2 class. -/
def escapeClassRune (r : ℕ) : Bytes :=
  if r=92 ∨ r=93 ∨ r=94 ∨ r=45 then 92::encodeRune r else encodeRune r

def quoteMeta (s : Bytes) : Bytes :=
  s.flatMap fun c => if c∈ascii "\\.+*?()|[]\x7b\x7d^$" then [92,c] else [c]

def isAlnumByte (c : UInt8) : Bool := isDigit c || (97≤c && c≤122) || (65≤c && c≤90)

def isGroupDigit (c : UInt8) : Bool := 49≤c && c≤57

def cutComma (s : Bytes) : Option (Bytes×Bytes) :=
  if 44∈s then some (s.takeWhile (·≠44),(s.dropWhile (·≠44)).drop 1) else none

theorem cutComma_some {lo hi : Bytes} (h : cutComma s=some (lo,hi)) : s=lo++44::hi := by
  unfold cutComma at h
  split at h
  · next hmem =>
    obtain ⟨rfl,rfl⟩ := h
    induction s with
    | nil => simp at hmem
    | cons c s ih =>
      by_cases hc : c=44
      · simp [hc]
      · have hmem' : 44∈s := by simpa [Ne.symm hc] using hmem
        simpa [hc] using ih hmem'
  · cases h

def allDigits (x : Bytes) : Bool := !x.isEmpty && x.all isDigit

def trimZeros (x : Bytes) : Bytes := x.dropWhile (· == 48)

def reDupMax : ℕ := 255

def withinDupMax (x : Bytes) : Bool := (trimZeros x).length≤3 && decimal x≤reDupMax

def stripZeros (x : Bytes) : Bytes := if trimZeros x=[] then [48] else trimZeros x

/-- `normalizeInterval`: the bounds of an interval in canonical decimal. -/
def normalizeInterval (s : Bytes) : Option Bytes :=
  match cutComma s with
  | none => if allDigits s && withinDupMax s then some (stripZeros s) else none
  | some (lo,hi) =>
    if 44∈hi ∨ lo=[] ∧ hi=[] then none
    else
      let lo := if lo=[] then [48] else lo
      if !allDigits lo || (hi≠[] && !allDigits hi) then none
      else if !withinDupMax lo || (hi≠[] && !withinDupMax hi) then none
      else if hi≠[] && decide (decimal hi<decimal lo) then none
      else some (stripZeros lo++[44]++if hi=[] then [] else stripZeros hi)

/-- `parseInterval`: the bounds of a normalized interval. -/
def parseInterval (s : Bytes) : ℕ×Option ℕ :=
  match cutComma s with
  | some (lo,hi) => (decimal lo,if hi=[] then none else some (decimal hi))
  | none => (decimal s,some (decimal s))

def interval (unmatched before after : String) (close t : Bytes) : Outcome Message (Bytes×Bytes) :=
  match index close t with
  | none => .error (say unmatched)
  | some stop => do
    let inner ← checkedSlice t 0 stop
    match normalizeInterval inner with
    | none => .error (sayWith before inner after)
    | some norm => return (norm,t.drop (stop+close.length))

def breInterval (t : Bytes) : Outcome Message (Bytes×Bytes) :=
  interval "unmatched \\\x7b" "invalid interval \\\x7b" "\\\x7d" [92,125] t

def ereInterval (t : Bytes) : Outcome Message (Bytes×Bytes) :=
  interval "unmatched \x7b" "invalid interval \x7b" "\x7d" [125] t

theorem safe_interval (unmatched before after : String) (close t : Bytes) :
    (interval unmatched before after close t).Safe fun r => r.2.length≤t.length := by
  unfold interval
  split
  · exact Outcome.safe_error _
  next stop hstop =>
  have hle := index_le hstop
  rw [checkedSlice_ok (Nat.zero_le _) (by omega),Outcome.ok_bind]
  split
  · exact Outcome.safe_error _
  · exact Outcome.safe_ok (by simp)

/-- What is read of an interval: its inside and its closing text. -/
theorem interval_ok {unmatched before after : String} {close t norm rest : Bytes}
    (h : interval unmatched before after close t=.ok (norm,rest)) :
    ∃inner,normalizeInterval inner=some norm ∧ t=inner++close++rest := by
  unfold interval at h
  split at h
  · cases h
  next stop hstop =>
  have hle := index_le hstop
  obtain ⟨inner,tail,rfl,rfl,-⟩ := index_some hstop
  rw [checkedSlice_ok (Nat.zero_le _) (by omega),Outcome.ok_bind] at h
  have hinner : ((inner++close++tail).take inner.length).drop 0=inner := by simp
  have hrest : (inner++close++tail).drop (inner.length+close.length)=tail := by
    rw [←List.length_append,List.drop_left]
  rw [hinner,hrest] at h
  split at h
  · cases h
  · next norm' hnorm =>
    cases h
    exact ⟨inner,hnorm,rfl⟩

example : normalizeInterval (ascii ",007")=some (ascii "0,7") := by decide
example : normalizeInterval (ascii "256")=none := by decide

/-- Where a scanner stands: where an expression starts, after an atom, or after an anchor. -/
inductive Pos where
  | start
  | atom
  | anchor
  deriving DecidableEq,Repr

end Coreutils.BreText
