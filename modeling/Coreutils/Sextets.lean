import Mathlib.Data.Nat.Bitwise
import Mathlib.Data.UInt

/-!
# Three bytes as four groups of six bits

Encodings of binary data in printable characters put three bytes together as a number of 24 bits and
write its four groups of six bits, from which the number comes back.
-/

namespace Coreutils.Sextets

def join3 (a b c : UInt8) : UInt32 := ((a.toUInt32 <<< 8 ||| b.toUInt32) <<< 8) ||| c.toUInt32

def join4 (p q r s : UInt8) : UInt32 :=
  ((p.toUInt32 <<< 18 ||| q.toUInt32 <<< 12) ||| r.toUInt32 <<< 6) ||| s.toUInt32

def sextet (v i : UInt32) : UInt8 := (v >>> i).toUInt8 &&& 0x3f

theorem toNat_shiftLeft {x k : UInt32} {i : ℕ} (hk : k.toNat=i) (hi : i<32)
    (hx : x.toNat*2^i<2^32) : (x <<< k).toNat=x.toNat*2^i := by
  rw [UInt32.toNat_shiftLeft,hk,Nat.mod_eq_of_lt hi,Nat.shiftLeft_eq,Nat.mod_eq_of_lt hx]

theorem toNat_or {x y : UInt32} (i : ℕ) (hx : 2^i ∣ x.toNat) (hy : y.toNat<2^i) :
    (x ||| y).toNat=x.toNat+y.toNat := by
  obtain ⟨m,hm⟩ := hx
  rw [UInt32.toNat_or,hm,Nat.two_pow_add_eq_or_of_lt hy]

theorem toNat_join3 (a b c : UInt8) : (join3 a b c).toNat=a.toNat*2^16+b.toNat*2^8+c.toNat := by
  have ha := a.toNat_lt
  have hb := b.toNat_lt
  have hc := c.toNat_lt
  have hshift : (a.toUInt32 <<< 8).toNat=a.toNat*2^8 :=
    toNat_shiftLeft rfl (by omega) (by rw [UInt8.toNat_toUInt32]; omega)
  have hab : (a.toUInt32 <<< 8 ||| b.toUInt32).toNat=a.toNat*2^8+b.toNat := by
    rw [toNat_or 8 (by rw [hshift]; omega) (by rw [UInt8.toNat_toUInt32]; exact hb),hshift,
      UInt8.toNat_toUInt32]
  have hshift' : ((a.toUInt32 <<< 8 ||| b.toUInt32) <<< 8).toNat =
      (a.toNat*2^8+b.toNat)*2^8 := by
    rw [←hab]
    exact toNat_shiftLeft rfl (by omega) (by rw [hab]; omega)
  rw [join3,toNat_or 8 (by rw [hshift']; omega) (by rw [UInt8.toNat_toUInt32]; exact hc),hshift',
    UInt8.toNat_toUInt32]
  omega

theorem toNat_join4 {p q r s : UInt8} (hp : p.toNat<64) (hq : q.toNat<64) (hr : r.toNat<64)
    (hs : s.toNat<64) : (join4 p q r s).toNat = p.toNat*2^18+q.toNat*2^12+r.toNat*2^6+s.toNat := by
  have hp' : (p.toUInt32 <<< 18).toNat=p.toNat*2^18 :=
    toNat_shiftLeft rfl (by omega) (by rw [UInt8.toNat_toUInt32]; omega)
  have hq' : (q.toUInt32 <<< 12).toNat=q.toNat*2^12 :=
    toNat_shiftLeft rfl (by omega) (by rw [UInt8.toNat_toUInt32]; omega)
  have hr' : (r.toUInt32 <<< 6).toNat=r.toNat*2^6 :=
    toNat_shiftLeft rfl (by omega) (by rw [UInt8.toNat_toUInt32]; omega)
  have hpq := toNat_or (x := p.toUInt32 <<< 18) (y := q.toUInt32 <<< 12) 18 (by omega) (by omega)
  have hpqr := toNat_or (x := p.toUInt32 <<< 18 ||| q.toUInt32 <<< 12) (y := r.toUInt32 <<< 6) 12
    (by omega) (by omega)
  rw [join4,toNat_or 6 (by omega) (by rw [UInt8.toNat_toUInt32]; omega),hpqr,hpq,hp',hq',hr',
    UInt8.toNat_toUInt32]

theorem toNat_sextet (v : UInt32) {i : UInt32} (hi : i.toNat<32) :
    (sextet v i).toNat=v.toNat/2^i.toNat%64 := by
  have h63 : (63 : ℕ)=2^6-1 := rfl
  simp only [sextet,UInt8.toNat_and,UInt32.toNat_toUInt8,UInt32.toNat_shiftRight,
    Nat.mod_eq_of_lt hi,UInt8.reduceToNat]
  rw [h63,Nat.and_two_pow_sub_one_eq_mod]
  omega

theorem sextet_lt (v : UInt32) {i : UInt32} (hi : i.toNat<32) : (sextet v i).toNat<64 := by
  rw [toNat_sextet v hi]
  omega

/-- The groups of three bytes put together are the three bytes put together. -/
theorem join4_sextets (a b c : UInt8) :
    join4 (sextet (join3 a b c) 18) (sextet (join3 a b c) 12) (sextet (join3 a b c) 6)
      (sextet (join3 a b c) 0)=join3 a b c := by
  have hv : (join3 a b c).toNat<2^24 := by
    have ha := a.toNat_lt
    have hb := b.toNat_lt
    have hc := c.toNat_lt
    rw [toNat_join3]
    omega
  apply UInt32.toNat_inj.mp
  rw [toNat_join4 (sextet_lt _ (by decide)) (sextet_lt _ (by decide)) (sextet_lt _ (by decide))
    (sextet_lt _ (by decide)),toNat_sextet _ (by decide),toNat_sextet _ (by decide),
    toNat_sextet _ (by decide),toNat_sextet _ (by decide)]
  simp only [UInt32.reduceToNat]
  omega

theorem bytes_join3 (a b c : UInt8) :
    (join3 a b c >>> 16).toUInt8=a ∧ (join3 a b c >>> 8).toUInt8=b ∧ (join3 a b c).toUInt8=c := by
  have hb := b.toNat_lt
  have hc := c.toNat_lt
  have hv := toNat_join3 a b c
  refine ⟨?_,?_,?_⟩
  · apply UInt8.toNat_inj.mp
    simp only [UInt32.toNat_toUInt8,UInt32.toNat_shiftRight,UInt32.reduceToNat,Nat.reduceMod]
    have ha := a.toNat_lt
    omega
  · apply UInt8.toNat_inj.mp
    simp only [UInt32.toNat_toUInt8,UInt32.toNat_shiftRight,UInt32.reduceToNat,Nat.reduceMod]
    omega
  · apply UInt8.toNat_inj.mp
    rw [UInt32.toNat_toUInt8]
    omega

/-- The groups past the last byte are zero. -/
theorem sextet_join3_zero (a b : UInt8) : sextet (join3 a b 0) 0=0 ∧ sextet (join3 a 0 0) 6=0 := by
  refine ⟨?_,?_⟩
  · apply UInt8.toNat_inj.mp
    rw [toNat_sextet _ (by decide),toNat_join3]
    simp only [UInt32.reduceToNat,UInt8.reduceToNat]
    omega
  · apply UInt8.toNat_inj.mp
    rw [toNat_sextet _ (by decide),toNat_join3]
    simp only [UInt32.reduceToNat,UInt8.reduceToNat]
    omega

end Coreutils.Sextets
