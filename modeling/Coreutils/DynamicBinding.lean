import Mathlib.Data.List.Induction
import Mathlib.Data.List.Nodup

/-!
# Dynamic binding by saving and restoring

Names are bound one after another in an environment; what each name had is saved before, and put
back afterwards. A name bound twice is saved twice, and the second time what it was bound to first
is kept.
-/

namespace Coreutils.DynamicBinding
open Function

variable {K V : Type*} [DecidableEq K]

/-- An environment and what was saved on the way to it; `some none` is a name that had no value. -/
structure Frame (K V : Type*) where
  env : K→Option V
  saved : K→Option (Option V)

def Frame.bind (f : Frame K V) (b : K×V) : Frame K V where
  env := update f.env b.1 (some b.2)
  saved := update f.saved b.1 (some (f.env b.1))

def Frame.enter (env : K→Option V) : Frame K V := ⟨env,fun _ => none⟩

def restore (saved : K→Option (Option V)) (env : K→Option V) : K→Option V :=
  fun k => (saved k).getD (env k)

def lastButOne (bs : List (K×V)) (k : K) : Option V :=
  ((bs.filter (·.1=k)).dropLast.getLast?).map Prod.snd

/-- Every name that is bound more than once had the value of its last binding but one already. -/
def Harmless (bs : List (K×V)) (env : K→Option V) : Prop :=
  ∀k v,lastButOne bs k=some v→env k=some v

theorem lastButOne_concat (bs : List (K×V)) (b : K×V) (k : K) : lastButOne (bs++[b]) k =
      if b.1=k then ((bs.filter (·.1=k)).getLast?).map Prod.snd else lastButOne bs k := by
  unfold lastButOne
  split <;> simp_all

theorem env_foldl_bind (env : K→Option V) (bs : List (K×V)) (k : K) :
    (bs.foldl Frame.bind (Frame.enter env)).env k =
      (((bs.filter (·.1=k)).getLast?).map Prod.snd).or (env k) := by
  induction bs using List.reverseRecOn with
  | nil => rfl
  | append_singleton bs b ih =>
    rw [List.foldl_append,List.foldl_cons,Frame.bind]
    by_cases h : b.1=k
    · subst h
      simp
    · simp [update_of_ne (Ne.symm h),h,ih]

/-- The value saved for a name: the one it had, unless it was bound before. -/
theorem saved_foldl_bind (env : K→Option V) (bs : List (K×V)) (k : K) :
    (bs.foldl Frame.bind (Frame.enter env)).saved k =
      if k∈bs.map Prod.fst then some ((lastButOne bs k).or (env k)) else none := by
  induction bs using List.reverseRecOn with
  | nil => rfl
  | append_singleton bs b ih =>
    have henv := env_foldl_bind env bs b.1
    rw [List.foldl_append,List.foldl_cons,List.foldl_nil,Frame.bind,lastButOne_concat]
    by_cases h : b.1=k
    · subst h
      simp [henv]
    · have hmem : k∈(bs++[b]).map Prod.fst ↔ k∈bs.map Prod.fst := by simp [Ne.symm h]
      simp only [update_of_ne (Ne.symm h),ih,hmem,if_neg h]

/-- What a name has after the bindings are undone, whatever was done in between. -/
theorem restore_foldl_bind (env env' : K→Option V) (bs : List (K×V)) (k : K) :
    restore (bs.foldl Frame.bind (Frame.enter env)).saved env' k =
      if k∈bs.map Prod.fst then (lastButOne bs k).or (env k) else env' k := by
  rw [restore,saved_foldl_bind]
  split <;> rfl

theorem mem_of_lastButOne {bs : List (K×V)} {k : K} {v : V} (h : lastButOne bs k=some v) :
    k∈bs.map Prod.fst := by
  obtain ⟨b,hb,-⟩ := Option.map_eq_some_iff.mp h
  have hmem := List.dropLast_subset _ (List.mem_of_getLast? hb)
  rw [List.mem_filter] at hmem
  exact List.mem_map.mpr ⟨b,hmem.1,by simpa using hmem.2⟩

/-- The names that were bound have their values back exactly when no repeated binding did harm. -/
theorem restore_iff (env env' : K→Option V) (bs : List (K×V)) : (∀k∈bs.map Prod.fst,
      restore (bs.foldl Frame.bind (Frame.enter env)).saved env' k=env k) ↔ Harmless bs env := by
  constructor
  · intro h k v hv
    have hk := h k (mem_of_lastButOne hv)
    rw [restore_foldl_bind,if_pos (mem_of_lastButOne hv),hv] at hk
    simpa using hk.symm
  · intro h k hk
    rw [restore_foldl_bind,if_pos hk]
    cases hv : lastButOne bs k with
    | none => rfl
    | some v => rw [h k v hv]; rfl

theorem harmless_of_nodup {bs : List (K×V)} (h : (bs.map Prod.fst).Nodup) (env : K→Option V) :
    Harmless bs env := by
  intro k v hv
  have hlen : (bs.filter (·.1=k)).length≤1 := by
    have hcount : (bs.map Prod.fst).count k≤1 := List.nodup_iff_count_le_one.mp h k
    rw [List.count_eq_countP,List.countP_map,List.countP_eq_length_filter] at hcount
    simpa [comp_def,beq_eq_decide] using hcount
  obtain ⟨b,hb,-⟩ := Option.map_eq_some_iff.mp hv
  have hnil : (bs.filter (·.1=k)).dropLast=[] := by
    rw [←List.length_eq_zero_iff,List.length_dropLast]
    omega
  simp [hnil] at hb

end Coreutils.DynamicBinding
