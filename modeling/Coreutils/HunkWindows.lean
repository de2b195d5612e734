import Coreutils.Alignment

/-!
# Windows on an alignment

A diff shows the chunks of an alignment through windows: chunks whose common blocks are at most
twice the width apart share a window, which shows up to the width of the common block on either
side. Between windows common elements are skipped.
-/

namespace Coreutils.HunkWindows
open List Coreutils.Alignment

section

variable {α : Type*} {w : ℕ} {cs : List (Chunk α)} {f : Chunk α→List α}

/-- The elements skipped before a window, its leading context and its chunks with the trailing. -/
structure Window (α : Type*) where
  skip : List α
  lead : List α
  chunks : List (Chunk α)
  deriving DecidableEq,Repr

def Window.old (x : Window α) : List α := x.skip++oldSide x.lead x.chunks

def Window.new (x : Window α) : List α := x.skip++newSide x.lead x.chunks

/-- The chunks that share a window with `c`, the elements left after it, and later chunks. -/
def splitRun (w : ℕ) (c : Chunk α) : List (Chunk α)→List (Chunk α)×List α×List (Chunk α)
  | [] => ([{ c with keep := c.keep.take w }],c.keep.drop w,[])
  | c'::cs =>
    if c.keep.length≤2*w then
      (c::(splitRun w c' cs).1,(splitRun w c' cs).2.1,(splitRun w c' cs).2.2)
    else ([{ c with keep := c.keep.take w }],c.keep.drop w,c'::cs)

theorem splitRun_length (w : ℕ) (c : Chunk α) (cs : List (Chunk α)) :
    (splitRun w c cs).2.2.length≤cs.length := by
  induction cs generalizing c with
  | nil => simp [splitRun]
  | cons c' cs ih =>
    rw [splitRun]
    split
    · exact Nat.le_trans (ih c') (Nat.le_succ _)
    · exact Nat.le_refl _

/-- The windows of an alignment and the elements after the last one. -/
def windows (w : ℕ) (lead : List α) (chunks : List (Chunk α)) : List (Window α)×List α :=
  match chunks with
  | [] => ([],lead)
  | c::cs =>
    let s := splitRun w c cs
    let r := windows w s.2.1 s.2.2
    (⟨lead.take (lead.length-w),lead.drop (lead.length-w),s.1⟩::r.1,r.2)
termination_by chunks.length
decreasing_by exact Nat.lt_succ_of_le (splitRun_length w c cs)

@[simp] theorem windows_nil (w : ℕ) (lead : List α) : windows w lead []=([],lead) := by rw [windows]

theorem windows_cons (w : ℕ) (lead : List α) (c : Chunk α) (cs : List (Chunk α)) :
    windows w lead (c::cs) =
      (⟨lead.take (lead.length-w),lead.drop (lead.length-w),(splitRun w c cs).1⟩ ::
        (windows w (splitRun w c cs).2.1 (splitRun w c cs).2.2).1,
       (windows w (splitRun w c cs).2.1 (splitRun w c cs).2.2).2) := by
  rw [windows]

/-- A window's run and what comes after it make up the side, whichever side it is. -/
theorem splitRun_side (hf : ∀(c : Chunk α) k,f { c with keep := k }=f c)
    (w : ℕ) (lead : List α) (c : Chunk α) (cs : List (Chunk α)) :
    side f lead (c::cs)=side f lead (splitRun w c cs).1 ++
      side f (splitRun w c cs).2.1 (splitRun w c cs).2.2 := by
  induction cs generalizing lead c with
  | nil => simp [splitRun,side_cons,hf]
  | cons c' cs ih =>
    rw [splitRun]
    split
    · rw [side_cons,ih c.keep c',side_cons]
      simp
    · simp [side_cons f lead,hf,←side_append]

theorem windows_side (hf : ∀(c : Chunk α) k,f { c with keep := k }=f c)
    (w : ℕ) (lead : List α) (cs : List (Chunk α)) :
    side f lead cs=(windows w lead cs).1.flatMap (fun x => x.skip++side f x.lead x.chunks) ++
      (windows w lead cs).2 := by
  induction lead,cs using windows.induct w with
  | case1 lead => simp
  | case2 lead c cs s ih =>
    rw [windows_cons,splitRun_side hf w,ih]
    simp [s,←side_append]

theorem windows_old (w : ℕ) (lead : List α) (cs : List (Chunk α)) :
    oldSide lead cs=(windows w lead cs).1.flatMap Window.old++(windows w lead cs).2 :=
  windows_side (fun _ _ => rfl) w lead cs

theorem windows_new (w : ℕ) (lead : List α) (cs : List (Chunk α)) :
    newSide lead cs=(windows w lead cs).1.flatMap Window.new++(windows w lead cs).2 :=
  windows_side (fun _ _ => rfl) w lead cs

/-- A run is the chunks up to one whose common block it cuts. -/
theorem splitRun_parts (w : ℕ) (c : Chunk α) (cs : List (Chunk α)) :
    ∃init d k,(splitRun w c cs).1=init++[{ d with keep := k }] ∧
      c::cs=init++d::(splitRun w c cs).2.2 ∧ d.keep=k++(splitRun w c cs).2.1 := by
  induction cs generalizing c with
  | nil => exact ⟨[],c,c.keep.take w,rfl,rfl,by simp [splitRun]⟩
  | cons c' cs ih =>
    rw [splitRun]
    by_cases hk : c.keep.length≤2*w
    · rw [if_pos hk]
      obtain ⟨init,d,k,h₁,h₂,h₃⟩ := ih c'
      exact ⟨c::init,d,k,by simp [h₁],by simp [h₂],h₃⟩
    · rw [if_neg hk]
      exact ⟨[],c,c.keep.take w,rfl,rfl,by simp⟩

theorem windows_chunks_ne_nil (w : ℕ) (lead : List α) (cs : List (Chunk α)) :
    ∀x∈(windows w lead cs).1,x.chunks≠[] := by
  induction lead,cs using windows.induct w with
  | case1 lead => simp
  | case2 lead c cs s ih =>
    obtain ⟨init,d,k,hrun,-,-⟩ := splitRun_parts w c cs
    rw [windows_cons]
    exact forall_mem_cons.mpr ⟨by simp [hrun],ih⟩

theorem splitRun_proper {c : Chunk α} (h : Proper (c::cs)) :
    Proper (splitRun w c cs).1 ∧ Proper (splitRun w c cs).2.2 := by
  obtain ⟨init,d,k,hrun,hcs,-⟩ := splitRun_parts w c cs
  rw [hcs] at h
  refine ⟨?_,?_⟩
  · rw [hrun]
    refine ⟨forall_mem_append.mpr ⟨fun e he => h.changes e (mem_append_left _ he),
      forall_mem_singleton.mpr (h.changes d (by simp))⟩,fun e he => ?_⟩
    rw [dropLast_concat] at he
    refine h.apart e ?_
    rw [dropLast_append_of_ne_nil (by simp)]
    exact mem_append_left _ he
  · refine ⟨fun e he => h.changes e (by simp [he]),fun e he => h.apart e ?_⟩
    have hne : (splitRun w c cs).2.2≠[] := fun hnil => by simp [hnil] at he
    rw [dropLast_append_of_ne_nil (by simp),dropLast_cons_of_ne_nil hne]
    simp [he]

theorem windows_proper {lead : List α} (h : Proper cs) :
    ∀x∈(windows w lead cs).1,Proper x.chunks := by
  induction lead,cs using windows.induct w with
  | case1 lead => simp
  | case2 lead c cs s ih =>
    rw [windows_cons]
    exact forall_mem_cons.mpr ⟨(splitRun_proper h).1,ih (splitRun_proper h).2⟩

/-- The last window ends with the last chunk; what it leaves of it comes after the windows. -/
theorem windows_last {lead : List α} {x : Window α} (h : (windows w lead cs).1.getLast?=some x) :
    ∃init init' d k,cs=init++[d] ∧ x.chunks=init'++[{ d with keep := k }] ∧
      d.keep=k++(windows w lead cs).2 := by
  induction lead,cs using windows.induct w with
  | case1 lead => simp at h
  | case2 lead c cs s ih =>
    obtain ⟨init,d,k,hrun,hcs,hkeep⟩ := splitRun_parts w c cs
    rw [windows_cons,getLast?_cons] at h
    rw [windows_cons,hcs]
    cases hrest : (splitRun w c cs).2.2 with
    | nil =>
      rw [hrest] at h
      simp only [windows_nil,getLast?_nil,Option.getD_none,Option.some.injEq] at h
      exact ⟨init,init,d,k,rfl,by rw [←h,hrun],by simpa using hkeep⟩
    | cons e es =>
      simp only [s,hrest] at h ih
      obtain ⟨y,hy⟩ : ∃y,(windows w (splitRun w c cs).2.1 (e::es)).1.getLast?=some y :=
        ⟨_,by rw [windows_cons,getLast?_cons]⟩
      rw [hy] at h
      obtain ⟨init₁,init',d',k',h₁,h₂,h₃⟩ := ih (h ▸ hy)
      exact ⟨init++d::init₁,init',d',k',by rw [h₁]; simp,h₂,h₃⟩

def Window.flip (x : Window α) : Window α := ⟨x.skip,x.lead,x.chunks.map Chunk.flip⟩

theorem Window.old_flip (x : Window α) : x.flip.old=x.new := by
  rw [Window.old,Window.flip,oldSide_flip,Window.new]

theorem splitRun_flip (w : ℕ) (c : Chunk α) (cs : List (Chunk α)) :
    splitRun w c.flip (cs.map Chunk.flip) =
      ((splitRun w c cs).1.map Chunk.flip,(splitRun w c cs).2.1,
        (splitRun w c cs).2.2.map Chunk.flip) := by
  induction cs generalizing c with
  | nil => rfl
  | cons c' cs ih =>
    rw [map_cons,splitRun,splitRun,ih c',show c.flip.keep=c.keep from rfl]
    split <;> rfl

/-- The common blocks decide where the windows are, so exchanging the sides leaves them in place. -/
theorem windows_flip (w : ℕ) (lead : List α) (cs : List (Chunk α)) :
    windows w lead (cs.map Chunk.flip) =
      ((windows w lead cs).1.map Window.flip,(windows w lead cs).2) := by
  induction lead,cs using windows.induct w with
  | case1 lead => simp
  | case2 lead c cs s ih =>
    rw [map_cons,windows_cons,windows_cons,splitRun_flip,ih]
    rfl

end

end Coreutils.HunkWindows
