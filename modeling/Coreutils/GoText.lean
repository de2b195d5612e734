import Mathlib.Data.List.Basic
import Mathlib.Tactic.Ring

/-!
# Bytes, decimal numbers and machine integers

Go strings and byte slices are lists of bytes; an `int` is an integer kept in range by `wrap64`
wherever an operation can leave it. Here are `strconv.Atoi` on digits and `strconv.Itoa`, the ways
to cut a text at its newlines, and the UTF-8 of `unicode/utf8`.
-/

namespace Coreutils.GoText
open List

abbrev Bytes := List UInt8

instance : LawfulBEq Bytes := instLawfulBEq

def ascii (s : String) : Bytes := s.toList.map Char.toUInt8

def newline : UInt8 := 10

def carriageReturn : UInt8 := 13

def backslash : UInt8 := 92

def isBlank (c : UInt8) : Bool := c == 32 || c == 9

/-- Two's complement wrap-around of a 64-bit `int`. -/
def wrap64 (x : ℤ) : ℤ := (x+2^63)%2^64-2^63

def maxInt : ℤ := 2^63-1

theorem wrap64_of_range {x : ℤ} (h₀ : -2^63≤x) (h₁ : x<2^63) : wrap64 x=x := by
  simp only [wrap64]
  omega

theorem wrap64_wrap64_add (x y : ℤ) : wrap64 (wrap64 x+y)=wrap64 (x+y) := by
  simp only [wrap64]
  omega

def slice (s : Bytes) (i j : ℕ) : Bytes := (s.take j).drop i

/-- `l[i:j]`; `none` is the panic of a slice out of range. -/
def slice? {α : Type} (l : List α) (i j : ℤ) : Option (List α) :=
  if 0 ≤ i ∧ i≤j ∧ j≤l.length then some ((l.take j.toNat).drop i.toNat) else none

def isDigit (c : UInt8) : Bool := 48≤c && c≤57

/-- The class `\w`. -/
def isWordByte (c : UInt8) : Bool := c == 95 || isDigit c || (65≤c && c≤90) || (97≤c && c≤122)

/-- The class `\s`. -/
def isReSpace (c : UInt8) : Bool := c == 9 || c == 10 || c == 12 || c == 13 || c == 32

def digits (n : ℕ) : Bytes := (Nat.toDigits 10 n).map Char.toUInt8

def itoa (x : ℤ) : Bytes := if x<0 then 45::digits x.natAbs else digits x.natAbs

def decimal (ds : Bytes) : ℕ := ds.foldl (fun v d => 10*v+(d.toNat-48)) 0

/-- `strconv.Atoi` on a string of digits, with the value it returns next to a range error. -/
def atoi (ds : Bytes) : ℤ := min (decimal ds) maxInt

def signed : Bytes→Bool×Bytes
  | [] => (false,[])
  | c::s => if c=45 then (true,s) else if c=43 then (false,s) else (false,c::s)

/-- `strconv.Atoi` on any text; nothing for an error. -/
def atoi? (s : Bytes) : Option ℤ :=
  let (neg,ds) := signed s
  let v : ℤ := if neg then -decimal ds else decimal ds
  if ds≠[] ∧ ds.all isDigit ∧ -2^63≤v ∧ v<2^63 then some v else none

/-- `atoiDefault`: zero for an absent number and for one out of range. -/
def atoiDefault (ds : Bytes) : ℤ := if decimal ds ≤ maxInt then decimal ds else 0

/-- `\d+` at the head of a string: the digits and what follows them. -/
def number? (s : Bytes) : Option (Bytes×Bytes) :=
  if s.takeWhile isDigit=[] then none else some (s.takeWhile isDigit,s.dropWhile isDigit)

private theorem digitChar_toUInt8 {d : ℕ} (h : d<10) :
    d.digitChar.toUInt8.toNat=48+d ∧ isDigit d.digitChar.toUInt8=true := by
  revert h d
  decide

theorem digits_eq (n : ℕ) : digits n=if n<10 then [(n.digitChar).toUInt8]
      else digits (n/10)++[((n%10).digitChar).toUInt8] := by
  rw [digits,Nat.toDigits_eq_if (by omega)]
  split <;> simp [digits]

variable {n : ℕ} {s sep : Bytes}

theorem isDigit_of_mem_digits {c : UInt8} (h : c∈digits n) : isDigit c=true := by
  induction n using Nat.strongRecOn with
  | ind n ih =>
    rw [digits_eq] at h
    split at h
    · rw [mem_singleton] at h
      exact h ▸ (digitChar_toUInt8 (by omega)).2
    · rcases mem_append.mp h with h | h
      · exact ih (n/10) (by omega) h
      · rw [mem_singleton] at h
        exact h ▸ (digitChar_toUInt8 (by omega)).2

@[simp] theorem digits_ne_nil (n : ℕ) : digits n≠[] := by simp [digits]

@[simp] theorem decimal_digits (n : ℕ) : decimal (digits n)=n := by
  induction n using Nat.strongRecOn with
  | ind n ih =>
    rw [digits_eq]
    split_ifs with h
    · simp [decimal,(digitChar_toUInt8 h).1]
    have := ih (n/10) (by omega)
    simp only [decimal] at this
    simp only [decimal,foldl_append,foldl_cons,foldl_nil,
      (digitChar_toUInt8 (Nat.mod_lt n (by omega : 0<10))).1]
    omega

def NoDigitHead (s : Bytes) : Prop := ∀c∈s.head?,isDigit c=false

theorem noDigitHead_cons {c : UInt8} (h : isDigit c=false) (s : Bytes) : NoDigitHead (c::s) := by
  simp [NoDigitHead,h]

theorem span_digits {ds : Bytes} (hd : ∀c∈ds,isDigit c=true) (hs : NoDigitHead s) :
    (ds++s).takeWhile isDigit=ds ∧ (ds++s).dropWhile isDigit=s := by
  have hend : s.takeWhile isDigit=[] ∧ s.dropWhile isDigit=s := by
    cases s with
    | nil => simp
    | cons c s => simp [hs c (by simp)]
  rw [takeWhile_append_of_pos hd,dropWhile_append_of_pos hd,hend.1,hend.2]
  simp

theorem number?_digits (n : ℕ) (hs : NoDigitHead s) : number? (digits n++s)=some (digits n,s) := by
  obtain ⟨htake,hdrop⟩ := span_digits (fun c hc => isDigit_of_mem_digits hc) hs
  rw [number?,htake,hdrop]
  simp

theorem itoa_natCast (n : ℕ) : itoa n=digits n := by simp [itoa]

theorem atoi_digits (h : n<2^63) : atoi (digits n)=n := by
  simp only [atoi,decimal_digits,maxInt]
  omega

theorem atoiDefault_digits (h : n<2^63) : atoiDefault (digits n)=n := by
  simp only [atoiDefault,decimal_digits,maxInt]
  rw [if_pos (by omega)]

/-- `bytesToLines` and `splitFileLines`: the lines, and whether the last lacks its newline. -/
def splitFileLines (s : Bytes) : List Bytes×Bool :=
  if s=[] then ([],false)
  else if s.getLast?=some newline then ((s.splitOn newline).dropLast,false)
  else (s.splitOn newline,true)

def printLines (ls : List Bytes) : Bytes := ls.flatMap (·++[newline])

theorem splitOn_printLines {ls : List Bytes} (h : ∀l∈ls,newline∉l) (s : Bytes) :
    (printLines ls++s).splitOn newline=ls++s.splitOn newline := by
  induction ls with
  | nil => simp [printLines]
  | cons l ls ih =>
    have hl := h l (by simp)
    simp only [printLines,flatMap_cons,append_assoc,cons_append]
    rw [splitOn_append_cons_self_of_not_mem hl]
    exact congrArg (l::·) (ih (fun m hm => h m (by simp [hm])))

theorem splitFileLines_printLines {ls : List Bytes} (h : ∀l∈ls,newline∉l) :
    splitFileLines (printLines ls)=(ls,false) := by
  rcases eq_nil_or_concat' ls with rfl | ⟨ls,l,rfl⟩
  · rfl
  have hlast : (printLines (ls++[l])).getLast?=some newline := by simp [printLines]
  have hne : printLines (ls++[l])≠[] := by
    intro h
    simp [h] at hlast
  have hsplit := splitOn_printLines h []
  simp only [append_nil] at hsplit
  simp [splitFileLines,hne,hlast,hsplit]

theorem mem_splitOn {l : Bytes} (h : l∈s.splitOn newline) : newline∉l ∧ l ⊆ s := by
  induction s generalizing l with
  | nil =>
    rw [splitOn_nil,mem_singleton] at h
    simp [h]
  | cons c s ih =>
    rw [splitOn_cons_eq_if_modifyHead] at h
    split_ifs at h with hc
    · rcases mem_cons.mp h with rfl | h
      · simp
      · exact ⟨(ih h).1,subset_cons_of_subset _ (ih h).2⟩
    obtain ⟨m,ms,hms⟩ := exists_cons_of_ne_nil (splitOn_ne_nil newline s)
    rw [hms] at h ih
    rcases mem_cons.mp h with rfl | h
    · obtain ⟨hm,hsub⟩ := ih mem_cons_self
      simp only [beq_iff_eq] at hc
      exact ⟨by simp [hm,Ne.symm hc],cons_subset_cons _ hsub⟩
    · have hl := ih (mem_cons_of_mem _ h)
      exact ⟨hl.1,subset_cons_of_subset _ hl.2⟩

theorem mem_splitFileLines {l : Bytes} (h : l∈(splitFileLines s).1) : newline∉l ∧ l ⊆ s := by
  unfold splitFileLines at h
  split at h
  · simp at h
  · split at h
    · exact mem_splitOn (dropLast_subset _ h)
    · exact mem_splitOn h

theorem length_splitOn (s : Bytes) : (s.splitOn newline).length=s.count newline+1 := by
  induction s with
  | nil => simp
  | cons c s ih =>
    rw [splitOn_cons_eq_if_modifyHead]
    split <;> simp_all

theorem length_splitFileLines_le (s : Bytes) : (splitFileLines s).1.length ≤ s.length := by
  have h := length_splitOn s
  have hcount := count_le_length (a := newline) (l := s)
  unfold splitFileLines
  split
  · simp
  rename_i hne
  split_ifs with hlast
  · simp only [length_dropLast]
    omega
  obtain ⟨s',c,rfl⟩ := (eq_nil_or_concat' s).resolve_left hne
  have hcount' := count_le_length (a := newline) (l := s')
  have hc : c≠newline := by simpa using hlast
  simp only [count_append,count_singleton,length_append,
    length_singleton,beq_iff_eq,if_neg hc] at h ⊢
  omega

/-- The parts of a text between separators, as `strings.SplitSeq` has them, after the part read;
the counter passes over a separator. -/
def splitSeq (sep : Bytes) : ℕ→Bytes→Bytes→List Bytes
  | _,part,[] => [part]
  | n+1,part,_::s => splitSeq sep n part s
  | 0,part,c::s =>
    if sep.isPrefixOf (c::s) then part::splitSeq sep (sep.length-1) [] s
    else splitSeq sep 0 (part++[c]) s

/-- `br.ReadBytes(sep)` to the end: the lines with their separators, and what is left. -/
def readLines (sep : UInt8) : Bytes→Bytes→List Bytes
  | line,[] => [line]
  | line,c::s =>
    if c=sep then (line++[c])::readLines sep [] s else readLines sep (line++[c]) s

theorem flatten_readLines (sep : UInt8) (line data : Bytes) :
    (readLines sep line data).flatten=line++data := by
  induction data generalizing line with
  | nil => simp [readLines]
  | cons c s ih =>
    rw [readLines]
    split <;> simp [ih]

/-- `strings.Index` and `bytes.Index`. -/
def index (sep : Bytes) : Bytes→Option ℕ
  | [] => if sep.isPrefixOf [] then some 0 else none
  | c::s => if sep.isPrefixOf (c::s) then some 0 else (index sep s).map (·+1)

theorem index_some {j : ℕ} (h : index sep s=some j) : ∃t rest,s=t++sep++rest ∧ t.length=j ∧
      ∀u,u++sep <+: s→j≤u.length := by
  induction s generalizing j with
  | nil =>
    rw [index] at h
    split at h
    · rename_i hp
      cases h
      obtain ⟨rest,hrest⟩ := isPrefixOf_iff_prefix.mp hp
      exact ⟨[],rest,hrest.symm,rfl,fun _ _ => Nat.zero_le _⟩
    · cases h
  | cons c s ih =>
    rw [index] at h
    split_ifs at h with hp
    · cases h
      obtain ⟨rest,hrest⟩ := isPrefixOf_iff_prefix.mp hp
      exact ⟨[],rest,hrest.symm,rfl,fun _ _ => Nat.zero_le _⟩
    · obtain ⟨j,hj,rfl⟩ := Option.map_eq_some_iff.mp h
      obtain ⟨t,rest,rfl,hlen,hfirst⟩ := ih hj
      refine ⟨c::t,rest,rfl,by simpa using hlen,fun u hu => ?_⟩
      cases u with
      | nil => exact absurd ( isPrefixOf_iff_prefix.mpr hu) hp
      | cons d u =>
        exact Nat.succ_le_succ (hfirst u (cons_prefix_cons.mp hu).2)

theorem index_le {j : ℕ} (h : index sep s=some j) : j+sep.length ≤ s.length := by
  obtain ⟨t,rest,rfl,rfl,-⟩ := index_some h
  simp only [length_append]
  omega

theorem index_none (h : index sep s=none) : ¬ sep <:+: s := by
  induction s with
  | nil =>
    rw [index] at h
    split at h
    · cases h
    · rename_i hp
      intro hin
      exact hp ( isPrefixOf_iff_prefix.mpr (infix_nil.mp hin ▸ prefix_refl _))
  | cons c s ih =>
    rw [index] at h
    split at h
    · cases h
    rename_i hp
    intro hin
    rcases infix_cons_iff.mp hin with hpre | hin
    · exact hp ( isPrefixOf_iff_prefix.mpr hpre)
    · exact ih (Option.map_eq_none_iff.mp h) hin

/-! ## Runes -/

def isContinuation (c : UInt8) : Bool := 0x80≤c && c≤0xBF

/-- The second bytes a leading byte accepts, as in the `acceptRanges` of `unicode/utf8`. -/
def acceptsSecond (lead c : UInt8) : Bool :=
  if lead=0xE0 then 0xA0≤c && c≤0xBF
  else if lead=0xED then 0x80≤c && c≤0x9F
  else if lead=0xF0 then 0x90≤c && c≤0xBF
  else if lead=0xF4 then 0x80≤c && c≤0x8F
  else isContinuation c

def runeError : ℕ := 0xFFFD

/-- `utf8.DecodeRune`: the rune at the head of a text and its length. -/
def decodeRune : Bytes→ℕ×ℕ
  | [] => (runeError,0)
  | b₀::s =>
    if b₀<0x80 then (b₀.toNat,1)
    else if b₀<0xC2 ∨ 0xF4<b₀ then (runeError,1)
    else
      match s with
      | [] => (runeError,1)
      | b₁::s =>
        if !acceptsSecond b₀ b₁ then (runeError,1)
        else if b₀<0xE0 then (b₀.toNat%32*64+b₁.toNat%64,2)
        else
          match s with
          | [] => (runeError,1)
          | b₂::s =>
            if !isContinuation b₂ then (runeError,1)
            else if b₀<0xF0 then
              ((b₀.toNat%16*64+b₁.toNat%64)*64+b₂.toNat%64,3)
            else
              match s with
              | [] => (runeError,1)
              | b₃::_ =>
                if !isContinuation b₃ then (runeError,1)
                else
                  (((b₀.toNat%8*64+b₁.toNat%64)*64+b₂.toNat%64)*64 +
                    b₃.toNat%64,4)

example : decodeRune [0xC3,0xA9,0x20]=(0xE9,2) := by decide
example : decodeRune [0xE2,0x82]=(runeError,1) := by decide

theorem decodeRune_size {s : Bytes} (h : s≠[]) :
    0<(decodeRune s).2 ∧ (decodeRune s).2 ≤ s.length := by
  cases s with
  | nil => exact absurd rfl h
  | cons b s =>
    simp only [decodeRune]
    repeat' split
    all_goals simp

theorem high_of_acceptsSecond {lead c : UInt8} (h : acceptsSecond lead c=true) : 0x80≤c := by
  unfold acceptsSecond isContinuation at h
  repeat' split at h
  all_goals
    rw [Bool.and_eq_true,decide_eq_true_eq] at h
    exact UInt8.le_trans (by decide) h.1

/-- No byte of a rune that is not ASCII is ASCII. -/
theorem high_of_mem_rune {b c : UInt8} {s : Bytes} (hb : 0x80≤b)
    (hc : c∈(b::s).take (decodeRune (b::s)).2) : 0x80≤c := by
  have hcont : ∀{d : UInt8},(!isContinuation d)≠true→0x80≤d := by
    intro d hd
    simp only [isContinuation,Bool.not_eq_true',ne_eq,Bool.not_eq_false,Bool.and_eq_true,
      decide_eq_true_eq] at hd
    exact hd.1
  have hsecond : ∀{d : UInt8},(!acceptsSecond b d)≠true→0x80≤d := fun hd =>
    high_of_acceptsSecond (by simpa using hd)
  simp only [decodeRune] at hc
  repeat' split at hc
  all_goals
    simp only [take_succ_cons,take_zero,mem_cons,not_mem_nil,or_false] at hc
    rcases hc with rfl | rfl | rfl | rfl <;>
      first | exact hb | exact hsecond (by assumption) | exact hcont (by assumption)

def encodeRune (r : ℕ) : Bytes :=
  if r<0x80 then [.ofNat r]
  else if r<0x800 then [.ofNat (0xC0+r/64),.ofNat (0x80+r%64)]
  else if 0x10FFFF<r ∨ 0xD800≤r ∧ r<0xE000 then [0xEF,0xBF,0xBD]
  else if r<0x10000 then
    [.ofNat (0xE0+r/4096),.ofNat (0x80+r/64%64),.ofNat (0x80+r%64)]
  else
    [.ofNat (0xF0+r/262144),.ofNat (0x80+r/4096%64),.ofNat (0x80+r/64%64),.ofNat (0x80+r%64)]

example : encodeRune 0xE9=[0xC3,0xA9] := by decide

end Coreutils.GoText
