import Mathlib.Data.List.Basic

/-!
# Alignments of two sequences

An alignment cuts an old and a new sequence into a leading common block and chunks: a deleted block,
an inserted block and the common block after them. Every chunk changes something, and a common
element separates two chunks.
-/

namespace Coreutils.Alignment
open List

/-- A changed block of either side and the common block that follows it. -/
structure Chunk (α : Type*) where
  del : List α
  ins : List α
  keep : List α
  deriving DecidableEq,Repr

section

variable {α β : Type*}

def Chunk.map (f : α→β) (c : Chunk α) : Chunk β := ⟨c.del.map f,c.ins.map f,c.keep.map f⟩

/-- One side of a common block and the chunks after it; `changed` is a chunk's block on it. -/
def side (changed : Chunk α→List α) (lead : List α) (chunks : List (Chunk α)) : List α :=
  lead++chunks.flatMap (fun c => changed c++c.keep)

def oldSide (lead : List α) (chunks : List (Chunk α)) : List α := side Chunk.del lead chunks

def newSide (lead : List α) (chunks : List (Chunk α)) : List α := side Chunk.ins lead chunks

variable (lead : List α) (f : Chunk α→List α) {c : Chunk α} {cs : List (Chunk α)}

@[simp] theorem side_nil (lead : List α) : side f lead []=lead := by simp [side]

theorem side_cons (lead : List α) (c : Chunk α) (cs : List (Chunk α)) :
    side f lead (c::cs)=lead++(f c++side f c.keep cs) := by
  simp [side]

theorem side_append (lead lead' : List α) (cs : List (Chunk α)) :
    side f (lead++lead') cs=lead++side f lead' cs := by
  simp [side]

theorem length_side (lead : List α) (cs : List (Chunk α)) :
    (side f lead cs).length=lead.length+(side f [] cs).length := by
  simp [side]

@[simp] theorem oldSide_nil : oldSide lead []=lead := side_nil _ _

@[simp] theorem newSide_nil : newSide lead []=lead := side_nil _ _

theorem oldSide_cons (c : Chunk α) (cs : List (Chunk α)) :
    oldSide lead (c::cs)=lead++(c.del++oldSide c.keep cs) := side_cons _ _ _ _

theorem newSide_cons (c : Chunk α) (cs : List (Chunk α)) :
    newSide lead (c::cs)=lead++(c.ins++newSide c.keep cs) := side_cons _ _ _ _

/-- Every chunk changes something and every chunk but the last keeps something. -/
structure Proper (chunks : List (Chunk α)) : Prop where
  changes : ∀c∈chunks,c.del≠[] ∨ c.ins≠[]
  apart : ∀c∈chunks.dropLast,c.keep≠[]

theorem proper_nil : Proper ([] : List (Chunk α)) := ⟨by simp,by simp⟩

theorem Proper.tail (h : Proper (c::cs)) : Proper cs := by
  refine ⟨fun d hd => h.changes d (mem_cons_of_mem _ hd),fun d hd => h.apart d ?_⟩
  cases cs with
  | nil => simp at hd
  | cons c' cs => exact mem_cons_of_mem _ hd

theorem Proper.cons (h : Proper cs)
    (hc : c.del≠[] ∨ c.ins≠[]) (hk : cs=[] ∨ c.keep≠[]) : Proper (c::cs) := by
  refine ⟨?_,?_⟩
  · rintro d (_ | ⟨_,hd⟩)
    · exact hc
    · exact h.changes d hd
  cases cs with
  | nil => simp
  | cons c' cs =>
    rintro d (_ | ⟨_,hd⟩)
    · exact hk.resolve_left (by simp)
    · exact h.apart d hd

theorem Proper.keep_ne_nil {c' : Chunk α} (h : Proper (c::c'::cs)) : c.keep≠[] :=
  h.apart c (by simp)

theorem Proper.last_or_keep (h : Proper (c::cs)) : cs=[] ∨ c.keep≠[] := by
  cases cs with
  | nil => exact .inl rfl
  | cons c' cs => exact .inr h.keep_ne_nil

theorem Proper.of_map {f : α→β} (h : Proper (cs.map (Chunk.map f))) : Proper cs := by
  refine ⟨fun c hc => ?_,fun c hc => ?_⟩
  · simpa [Chunk.map] using h.changes (c.map f) (mem_map_of_mem hc)
  · have := h.apart (c.map f) (by rw [←map_dropLast]; exact mem_map_of_mem hc)
    simpa [Chunk.map] using this

def Chunk.flip (c : Chunk α) : Chunk α := ⟨c.ins,c.del,c.keep⟩

theorem oldSide_flip (cs : List (Chunk α)) : oldSide lead (cs.map Chunk.flip)=newSide lead cs := by
  simp [oldSide,newSide,side,flatMap_map,Chunk.flip]

theorem newSide_flip (cs : List (Chunk α)) : newSide lead (cs.map Chunk.flip)=oldSide lead cs := by
  simp [oldSide,newSide,side,flatMap_map,Chunk.flip]

theorem Proper.flip (h : Proper cs) : Proper (cs.map Chunk.flip) := by
  refine ⟨fun c hc => ?_,fun c hc => ?_⟩
  · obtain ⟨d,hd,rfl⟩ := mem_map.mp hc
    exact (h.changes d hd).symm
  · rw [←map_dropLast] at hc
    obtain ⟨d,hd,rfl⟩ := mem_map.mp hc
    exact h.apart d hd

/-- Blocks of mapped sequences are blocks of the sequences, when the map tells elements apart. -/
theorem exists_of_map (f : α→β) {A B : List α} {lead : List β} {chunks : List (Chunk β)}
    (hf : ∀x∈A,∀y∈B,f x=f y→x=y) (hA : A.map f=oldSide lead chunks)
    (hB : B.map f=newSide lead chunks) :
    ∃lead' chunks',lead=lead'.map f ∧ chunks=chunks'.map (Chunk.map f) ∧
      A=oldSide lead' chunks' ∧ B=newSide lead' chunks' := by
  -- a common block has one preimage on either side, and these agree
  have agree : ∀{P Q : List α},(∀x∈P,∀y∈Q,f x=f y→x=y)→
      P.map f=Q.map f→P=Q := by
    intro P
    induction P with
    | nil => intro Q _ h; simpa using h
    | cons x P ih =>
      intro Q hPQ h
      cases Q with
      | nil => simp at h
      | cons y Q =>
        simp only [map_cons,cons.injEq] at h
        rw [hPQ x (by simp) y (by simp) h.1,
          ih (fun x hx y hy => hPQ x (by simp [hx]) y (by simp [hy])) h.2]
  induction chunks generalizing A B lead with
  | nil =>
    simp only [oldSide_nil,newSide_nil] at hA hB
    have := agree hf (hA.trans hB.symm)
    exact ⟨A,[],hA.symm,rfl,by simp,by simpa using this.symm⟩
  | cons c cs ih =>
    rw [oldSide_cons,map_eq_append_iff] at hA
    rw [newSide_cons,map_eq_append_iff] at hB
    obtain ⟨P,A',rfl,hP,hA'⟩ := hA
    obtain ⟨Q,B',rfl,hQ,hB'⟩ := hB
    rw [map_eq_append_iff] at hA' hB'
    obtain ⟨D,A'',rfl,hD,hA''⟩ := hA'
    obtain ⟨I,B'',rfl,hI,hB''⟩ := hB'
    obtain rfl : P=Q :=
      agree (fun x hx y hy => hf x (by simp [hx]) y (by simp [hy])) (hP.trans hQ.symm)
    obtain ⟨keep,cs',hk,hcs,rfl,rfl⟩ :=
      ih (fun x hx y hy => hf x (by simp [hx]) y (by simp [hy])) hA'' hB''
    refine ⟨P,⟨D,I,keep⟩::cs',hP.symm,?_,by rw [oldSide_cons],by rw [newSide_cons]⟩
    rw [map_cons,←hcs,Chunk.map,hD,hI,←hk]

end

end Coreutils.Alignment
