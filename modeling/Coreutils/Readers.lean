import Coreutils.GoText

/-!
# Inputs that arrive in pieces

A reader is what its calls return one after the other, up to the end of the input; a call that asks
for less gets the rest the next time. A buffer filled and a line read do not depend on where the
pieces end.
-/

namespace Coreutils.Readers
open List GoText

/-- The pieces of an input, none empty: buffered readers give up after many empty ones. -/
structure Reader where
  reads : List Bytes
  nil_notMem : []∉reads

def Reader.content (r : Reader) : Bytes := r.reads.flatten

def Reader.ofBytes (data : Bytes) : Reader where
  reads := if data=[] then [] else [data]
  nil_notMem := by
    split_ifs with h
    · exact not_mem_nil
    · exact fun hmem => h (mem_singleton.mp hmem).symm

def readFull : List Bytes→ℕ→Bytes×List Bytes
  | [],_ => ([],[])
  | c::reads,k =>
    if k<c.length then (c.take k,c.drop k::reads)
    else (c++(readFull reads (k-c.length)).1,(readFull reads (k-c.length)).2)

theorem readFull_spec (reads : List Bytes) (k : ℕ) : (readFull reads k).1=reads.flatten.take k ∧
    (readFull reads k).2.flatten=reads.flatten.drop k := by
  induction reads generalizing k with
  | nil => simp [readFull]
  | cons c reads ih =>
    rw [readFull,flatten_cons]
    split
    · rw [take_append_of_le_length (by omega),drop_append_of_le_length (by omega)]
      exact ⟨rfl,flatten_cons⟩
    · rw [take_append,take_of_length_le (by omega),drop_append,drop_eq_nil_of_le (by omega),
        (ih _).1]
      exact ⟨rfl,(ih _).2⟩

/-- `bufio.Reader.ReadString` again and again: the lines, with their separators, and what is left
after the last one. A piece ends the lines whose separators it has and starts the next one. -/
def readStrings (sep : UInt8) : Bytes→List Bytes→List Bytes
  | line,[] => [line]
  | line,c::reads =>
    (readLines sep line c).dropLast++readStrings sep ((readLines sep line c).getLastD []) reads

theorem readLines_ne_nil (sep : UInt8) (line s : Bytes) : readLines sep line s≠[] := by
  induction s generalizing line with
  | nil => simp [readLines]
  | cons c s ih =>
    rw [readLines]
    split
    · simp
    · exact ih _

theorem readLines_append (sep : UInt8) (line s t : Bytes) : readLines sep line (s++t) =
      (readLines sep line s).dropLast++readLines sep ((readLines sep line s).getLastD []) t := by
  induction s generalizing line with
  | nil => simp [readLines]
  | cons c s ih =>
    rw [cons_append,readLines,readLines]
    split
    · have hne := readLines_ne_nil sep [] s
      rw [ih,dropLast_cons_of_ne_nil hne,
        getLastD_cons,getLastD_eq_getLast?,getLastD_eq_getLast?,getLast?_eq_some_getLast hne]
      rfl
    · exact ih _

theorem readStrings_eq (sep : UInt8) (line : Bytes) (reads : List Bytes) :
    readStrings sep line reads=readLines sep line reads.flatten := by
  induction reads generalizing line with
  | nil => rfl
  | cons c reads ih => rw [readStrings,ih,flatten_cons,readLines_append]

theorem readLines_line {sep : UInt8} {l : Bytes} (hl : sep∉l) (line s : Bytes) :
    readLines sep line (l++sep::s)=(line++l++[sep])::readLines sep [] s := by
  induction l generalizing line with
  | nil => simp [readLines]
  | cons c l ih =>
    have hc : c≠sep := fun h => hl (h ▸ mem_cons_self)
    rw [cons_append,readLines,if_neg hc,ih fun h => hl (mem_cons_of_mem c h)]
    simp

/-- The lines of a text that ends with a line. -/
theorem readLines_printLines {ls : List Bytes} (h : ∀l∈ls,newline∉l) :
    readLines newline [] (printLines ls)=ls.map (·++[newline])++[[]] := by
  induction ls with
  | nil => rfl
  | cons l ls ih =>
    have hl := readLines_line (h l mem_cons_self) [] (printLines ls)
    rw [nil_append,ih fun m hm => h m (mem_cons_of_mem l hm)] at hl
    rw [map_cons,cons_append,←hl]
    simp [printLines]

end Coreutils.Readers
