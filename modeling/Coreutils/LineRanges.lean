import Mathlib.Data.List.Nodup
import Mathlib.Tactic.Linarith

/-!
# Ranges of a list

Lists with positions counted from one: what is between two positions, a list without it or with
others after a position, and where the elements are then found.
-/

namespace Coreutils.LineRanges
open List

section
variable {α β : Type} {l xs : List α} {first last after n : ℤ} {x : α}

def without (l : List α) (first last : ℤ) : List α := l.take (first-1).toNat++l.drop last.toNat

def withAfter (l : List α) (after : ℤ) (xs : List α) : List α :=
  l.take after.toNat++xs++l.drop after.toNat

def range (l : List α) (first last : ℤ) : List α := (l.take last.toNat).drop (first-1).toNat

theorem length_without (h₀ : 1≤first) (h₁ : first≤last) (h₂ : last≤l.length) :
    ((without l first last).length : ℤ)=l.length-(last-first+1) := by
  simp only [without,length_append,length_take,length_drop]
  omega

theorem length_withAfter (h₁ : after≤l.length) :
    ((withAfter l after xs).length : ℤ)=l.length+xs.length := by
  simp only [withAfter,length_append,length_take,length_drop]
  omega

theorem length_range (h₀ : 1≤first) (h₁ : first≤last) (h₂ : last≤l.length) :
    ((range l first last).length : ℤ)=last-first+1 := by
  simp only [range,length_drop,length_take]
  omega

theorem map_without (f : α→β) (first last : ℤ) :
    (without l first last).map f=without (l.map f) first last := by
  simp [without]

theorem map_withAfter (f : α→β) (after : ℤ) :
    (withAfter l after xs).map f=withAfter (l.map f) after (xs.map f) := by
  simp [withAfter]

theorem map_range (f : α→β) (first last : ℤ) :
    (range l first last).map f=range (l.map f) first last := by
  simp [range]

theorem perm_withAfter (after : ℤ) : (withAfter l after xs).Perm (l++xs) := by
  have h : (l.take after.toNat++xs++l.drop after.toNat).Perm
      (l.take after.toNat++l.drop after.toNat++xs) := by
    rw [append_assoc,append_assoc]
    exact List.Perm.append_left _ perm_append_comm
  rwa [take_append_drop] at h

theorem perm_without (h₁ : first≤last) : (without l first last++range l first last).Perm l := by
  have hsplit : l.take (first-1).toNat++range l first last++l.drop last.toNat=l := by
    have htake : (l.take last.toNat).take (first-1).toNat=l.take (first-1).toNat := by
      rw [take_take,min_eq_left (by omega)]
    rw [range,←htake,take_append_drop,take_append_drop]
  have h : (l.take (first-1).toNat++l.drop last.toNat++range l first last).Perm
      (l.take (first-1).toNat++range l first last++l.drop last.toNat) := by
    rw [append_assoc,append_assoc]
    exact List.Perm.append_left _ perm_append_comm
  rwa [hsplit] at h

theorem withAfter_before :
    l.take (n-1).toNat++(xs++range l n n)++l.drop n.toNat=withAfter l (n-1) xs := by
  have htail : range l n n++l.drop n.toNat=l.drop (n-1).toNat := by
    have hdrop : l.drop n.toNat=(l.drop (n-1).toNat).drop (n.toNat-(n-1).toNat) := by
      rw [drop_drop]
      congr 1
      omega
    rw [range,drop_take,hdrop,take_append_drop]
  rw [withAfter,append_assoc,append_assoc,append_assoc,htail]

def At (l : List α) (n : ℤ) (x : α) : Prop := 1≤n ∧ l[(n-1).toNat]?=some x

theorem At.mem (h : At l n x) : x∈l := mem_of_getElem? h.2

theorem At.le (h : At l n x) : n≤l.length := by
  have := (List.getElem?_eq_some_iff.mp h.2).1
  omega

theorem exists_at (h : x∈l) : ∃n,At l n x := by
  obtain ⟨i,hi⟩ := mem_iff_getElem?.mp h
  exact ⟨i+1,by omega,by simpa using hi⟩

theorem At.unique (hl : l.Nodup) {m : ℤ} (h : At l m x) (h' : At l n x) : m=n := by
  have h₁ := h.1
  have h₂ := h'.1
  have hlt := (List.getElem?_eq_some_iff.mp h.2).1
  have := (List.getElem?_inj hlt hl).mp (h.2.trans h'.2.symm)
  omega

theorem at_cons {y : α} : At (y::l) n x ↔ n=1 ∧ y=x ∨ At l (n-1) x := by
  unfold At
  obtain hn | rfl | hn : n<1 ∨ n=1 ∨ 1<n := by omega
  · simp [show ¬ 1≤n by omega,show n≠1 by omega,show ¬ 1≤n-1 by omega]
  · simp
  · obtain ⟨k,hk⟩ : ∃k,(n-1).toNat=k+1 := ⟨(n-1).toNat-1,by omega⟩
    rw [hk,show (n-1-1).toNat=k by omega]
    simp [hn.le,hn.ne',show (1 : ℤ)≤n-1 by omega]

theorem at_append {m : List α} : At (l++m) n x ↔ At l n x ∨ At m (n-l.length) x := by
  by_cases hn : n≤l.length
  · have hr : ¬ At m (n-l.length) x := fun h => by
      have := h.1
      omega
    rw [or_iff_left hr]
    refine and_congr_right fun h₁ => ?_
    rw [getElem?_append_left (by omega)]
  · have hl : ¬ At l n x := fun h => hn h.le
    have hsub : (n-1).toNat-l.length=(n-l.length-1).toNat := by omega
    rw [or_iff_right hl]
    unfold At
    rw [getElem?_append_right (by omega),hsub]
    exact and_congr_left fun _ => by omega

theorem at_take {k : ℕ} : At (l.take k) n x ↔ n≤k ∧ At l n x := by
  unfold At
  rw [getElem?_take]
  split
  · constructor
    · exact fun h => ⟨by omega,h⟩
    · exact fun h => h.2
  · constructor
    · exact fun h => by simp at h
    · exact fun h => by omega

theorem at_drop {k : ℕ} : At (l.drop k) n x ↔ 1≤n ∧ At l (n+k) x := by
  unfold At
  rw [getElem?_drop]
  constructor
  · rintro ⟨h₁,h₂⟩
    exact ⟨h₁,by omega,by rwa [show (n+k-1).toNat=k+(n-1).toNat by omega]⟩
  · rintro ⟨h₁,_,h₂⟩
    exact ⟨h₁,by rwa [show (n+k-1).toNat=k+(n-1).toNat by omega] at h₂⟩

theorem at_withAfter (h₀ : 0≤after) (h₁ : after≤l.length) :
    At (withAfter l after xs) n x ↔ n≤after ∧ At l n x ∨ At xs (n-after) x ∨
      after<n-xs.length ∧ At l (n-xs.length) x := by
  have hlen : ((l.take after.toNat).length : ℤ)=after := by
    rw [length_take]
    omega
  rw [withAfter,append_assoc,at_append,at_append,at_take,at_drop,hlen,
    show n-after-xs.length+after.toNat=n-xs.length by omega,
    show (n≤(after.toNat : ℤ))=(n≤after) by rw [Int.toNat_of_nonneg h₀],
    show (1≤n-after-(xs.length : ℤ))=(after<n-xs.length) by
      rw [eq_iff_iff]
      omega]

section
variable (h₀ : 1≤first) (h₁ : first≤last)
include h₀ h₁

theorem at_without (h₂ : last≤l.length) :
    At (without l first last) n x ↔ n<first ∧ At l n x ∨ first≤n ∧ At l (n+(last-first+1)) x := by
  have hlen : ((l.take (first-1).toNat).length : ℤ)=first-1 := by
    rw [length_take]
    omega
  rw [without,at_append,at_take,at_drop,hlen,show n-(first-1)+last.toNat=n+(last-first+1) by omega,
    show (n≤((first-1).toNat : ℤ))=(n<first) by
      rw [eq_iff_iff]
      omega,show (1≤n-(first-1))=(first≤n) by
      rw [eq_iff_iff]
      omega]

theorem at_range : At (range l first last) n x ↔ 1≤n ∧ n≤last-first+1 ∧ At l (n+first-1) x := by
  rw [range,at_drop,at_take,show n+((first-1).toNat : ℤ)=n+first-1 by omega,
    show (n+first-1≤(last.toNat : ℤ))=(n≤last-first+1) by
      rw [eq_iff_iff]
      omega]

theorem mem_range_iff : x∈range l first last ↔ ∃p,first≤p ∧ p≤last ∧ At l p x := by
  constructor
  · intro h
    obtain ⟨n,hat⟩ := exists_at h
    obtain ⟨hn₁,hn₂,hat⟩ := (at_range h₀ h₁).mp hat
    exact ⟨n+first-1,by omega,by omega,hat⟩
  · rintro ⟨p,hp₁,hp₂,hat⟩
    exact At.mem ((at_range h₀ h₁ (n := p-first+1)).mpr
      ⟨by omega,by omega,by rwa [show p-first+1+first-1=p by omega]⟩)

end

end

end Coreutils.LineRanges
