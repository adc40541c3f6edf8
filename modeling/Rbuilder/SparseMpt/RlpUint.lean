/-
  RLP of short strings and of numbers as trie keys.

  The RLP of a string gives its own length, so no RLP is a proper prefix of another
  (`encodeString_selfDelimiting`), as bytes and as nibbles. Numbers are strings of big-endian
  bytes. The RLP of numbers from 128 on is ordered as the numbers are; those below are
  single bytes, and zero, as the empty string, comes in between.
-/
import Rbuilder.Calculator.Bundle
import Rbuilder.Patricia.Compose
import Mathlib.Data.Nat.Digits.Lemmas

namespace SparseMpt

open Patricia (PrefixFree)
open List UInt8 Nat

/-! ## Short strings -/

theorem encodeString_cases {s : Bytes} (h : s.length < 56) :
    (∃ b, s = [b] ∧ b < emptyStringCode ∧ encodeString s = [b]) ∨
      encodeString s = ofNat (0x80 + s.length) :: s := by
  have hheader : encodeHeader false s.length = [ofNat (0x80 + s.length)] := if_pos h
  cases s with
  | nil => exact .inr rfl
  | cons b rest =>
    cases rest with
    | nil =>
      by_cases hb : b < emptyStringCode
      · exact .inl ⟨b, rfl, hb, if_pos hb⟩
      · exact .inr (if_neg hb)
    | cons c rest =>
      right
      change encodeHeader false (b :: c :: rest).length ++ (b :: c :: rest) = _
      rw [hheader]
      rfl

variable {n m : Nat} {a b : Bytes}

theorem toNat_stringCode (h : n < 56) : (ofNat (0x80 + n)).toNat = 0x80 + n := by
  rw [toNat_ofNat']
  omega

/-- The code of a string is not a byte that stands for itself. -/
theorem ne_stringCode {b : UInt8} (hb : b < emptyStringCode) (h : n < 56) :
    b ≠ ofNat (0x80 + n) := by
  intro heq
  have hlt : b.toNat < 0x80 := hb
  rw [heq, toNat_stringCode h] at hlt
  omega

theorem encodeString_selfDelimiting {s s' : Bytes} (h : s.length < 56) (h' : s'.length < 56)
    (hp : encodeString s <+: encodeString s') : s = s' := by
  obtain ⟨b, rfl, hb, henc⟩ | henc := encodeString_cases h
  · obtain ⟨b', rfl, -, henc'⟩ | henc' := encodeString_cases h'
    · rw [henc, henc', cons_prefix_cons] at hp
      rw [hp.1]
    · rw [henc, henc', cons_prefix_cons] at hp
      exact (ne_stringCode hb h' hp.1).elim
  obtain ⟨b', rfl, hb', henc'⟩ | henc' := encodeString_cases h'
  · rw [henc, henc', cons_prefix_cons] at hp
    exact (ne_stringCode hb' h hp.1.symm).elim
  rw [henc, henc', cons_prefix_cons] at hp
  have hlen : s.length = s'.length := by
    have hcode := congrArg toNat hp.1
    rw [toNat_stringCode h, toNat_stringCode h'] at hcode
    omega
  exact hp.2.eq_of_length hlen

/-! ## Nibbles -/

theorem nibbles_inj {a b : UInt8} (hhi : Fin.ofNat 16 (a.toNat / 16) = Fin.ofNat 16 (b.toNat / 16))
    (hlo : Fin.ofNat 16 (a.toNat % 16) = Fin.ofNat 16 (b.toNat % 16)) : a = b := by
  have hhi := congrArg Fin.val hhi
  have hlo := congrArg Fin.val hlo
  simp only [Fin.val_ofNat] at hhi hlo
  have ha := a.toNat_lt
  have hb := b.toNat_lt
  exact UInt8.toNat_inj.mp (by omega)

theorem prefix_of_unpack (h : unpack a <+: unpack b) : a <+: b := by
  induction a generalizing b with
  | nil => exact nil_prefix
  | cons x a ih =>
    cases b with
    | nil => exact absurd (prefix_nil.mp h) (cons_ne_nil _ _)
    | cons y b =>
      simp only [unpack, cons_prefix_cons] at h
      rw [nibbles_inj h.1 h.2.1]
      exact cons_prefix_cons.mpr ⟨rfl, ih h.2.2⟩

theorem unpack_injective (h : unpack a = unpack b) : a = b := by
  have hab : a <+: b := prefix_of_unpack (h ▸ prefix_refl _)
  have hba : b <+: a := prefix_of_unpack (h ▸ prefix_refl _)
  exact hab.eq_of_length (le_antisymm hab.length_le hba.length_le)

/-- The keys that are RLP of short strings. -/
def shortStringKeys : Set Nibbles := {k | ∃ s : Bytes, s.length < 56 ∧ unpack (encodeString s) = k}

theorem prefixFree_shortStringKeys : PrefixFree shortStringKeys := by
  rintro _ ⟨s, hs, rfl⟩ _ ⟨s', hs', rfl⟩ hp
  rw [encodeString_selfDelimiting hs hs' (prefix_of_unpack hp)]

/-- Nibbles are ordered as their bytes are. -/
theorem unpack_lt (h : a < b) : unpack a < unpack b := by
  induction h with
  | nil => exact Lex.nil
  | cons _ ih => exact Lex.cons (Lex.cons ih)
  | @rel x as y bs hxy =>
    have hlt : x.toNat < y.toNat := hxy
    have hy := y.toNat_lt
    by_cases hhi : x.toNat / 16 = y.toNat / 16
    · rw [unpack, unpack, hhi]
      refine Lex.cons (Lex.rel ?_)
      rw [Fin.lt_def, Fin.val_ofNat, Fin.val_ofNat]
      omega
    · refine Lex.rel ?_
      rw [Fin.lt_def, Fin.val_ofNat, Fin.val_ofNat]
      omega

/-! ## Numbers -/

/-- The number of big-endian bytes. -/
def ofBeBytes : Bytes → Nat
  | [] => 0
  | b :: bs => b.toNat * 256 ^ bs.length + ofBeBytes bs

theorem ofBeBytes_append (as bs : Bytes) :
    ofBeBytes (as ++ bs) = ofBeBytes as * 256 ^ bs.length + ofBeBytes bs := by
  induction as with
  | nil => simp [ofBeBytes]
  | cons a as ih =>
    rw [cons_append, ofBeBytes, ofBeBytes, ih, length_append, pow_add]
    ring

theorem ofBeBytes_lt (bs : Bytes) : ofBeBytes bs < 256 ^ bs.length := by
  induction bs with
  | nil => decide
  | cons b bs ih =>
    have hb := b.toNat_lt
    calc b.toNat * 256 ^ bs.length + ofBeBytes bs
        < b.toNat * 256 ^ bs.length + 256 ^ bs.length := by omega
      _ = (b.toNat + 1) * 256 ^ bs.length := by ring
      _ ≤ 256 * 256 ^ bs.length := mul_le_mul_right _ (by omega)
      _ = 256 ^ bs.length * 256 := by ring

theorem ofBeBytes_toBeBytes (n : Nat) : ofBeBytes (toBeBytes n) = n := by
  have hdigits (ds : List Nat) (h : ∀ d ∈ ds, d < 256) :
      ofBeBytes (ds.reverse.map ofNat) = ofDigits 256 ds := by
    induction ds with
    | nil => rfl
    | cons d ds ih =>
      have hd : (ofNat d).toNat = d := by
        exact mod_eq_of_lt (h d mem_cons_self)
      rw [reverse_cons, map_append, ofBeBytes_append,
        ih fun e he => h e (mem_cons_of_mem _ he), ofDigits_cons]
      simp only [map_cons, map_nil, ofBeBytes, length_cons, length_nil, hd]
      omega
  rw [toBeBytes, hdigits _ fun d hd => digits_lt_base (by decide) hd, ofDigits_digits]

theorem toBeBytes_injective (h : toBeBytes m = toBeBytes n) : m = n := by
  rw [← ofBeBytes_toBeBytes m, h, ofBeBytes_toBeBytes]

theorem length_toBeBytes (n : Nat) : (toBeBytes n).length = (digits 256 n).length := by
  rw [toBeBytes, length_map, length_reverse]

theorem length_toBeBytes_le (h : n < 2 ^ 64) : (toBeBytes n).length ≤ 8 := by
  rw [length_toBeBytes]
  exact (digits_length_le_iff (by decide) n).mpr h

theorem length_toBeBytes_mono (h : m ≤ n) : (toBeBytes m).length ≤ (toBeBytes n).length := by
  rw [length_toBeBytes, length_toBeBytes]
  exact le_length_digits_le 256 m n h

/-- Of the same length, the smaller number comes first. -/
theorem lt_of_ofBeBytes_lt (hlen : a.length = b.length)
    (h : ofBeBytes a < ofBeBytes b) : a < b := by
  induction a generalizing b with
  | nil =>
    have hb : b = [] := length_eq_zero_iff.mp hlen.symm
    rw [hb] at h
    exact absurd h (Nat.lt_irrefl _)
  | cons x a ih =>
    cases b with
    | nil => cases hlen
    | cons y b =>
      have htail : a.length = b.length := by simpa using hlen
      rw [ofBeBytes, ofBeBytes, htail] at h
      have hb := ofBeBytes_lt b
      by_cases hxy : x.toNat < y.toNat
      · exact Lex.rel hxy
      have heq : x = y := by
        refine UInt8.toNat_inj.mp (Nat.le_antisymm ?_ (Nat.le_of_not_lt hxy))
        by_contra hgt
        have hstep : (y.toNat + 1) * 256 ^ b.length ≤ x.toNat * 256 ^ b.length :=
          Nat.mul_le_mul_right _ (by omega)
        rw [Nat.add_mul, Nat.one_mul] at hstep
        omega
      subst heq
      exact Lex.cons (ih htail (by omega))

/-! ## RLP of numbers -/

/-- A number below `2 ^ 64` is a short string. -/
theorem encodeUint_mem_shortStringKeys (h : n < 2 ^ 64) : unpack (encodeUint n) ∈ shortStringKeys :=
  ⟨toBeBytes n, lt_of_le_of_lt (length_toBeBytes_le h) (by decide), rfl⟩

theorem encodeUint_injective (hm : m < 2 ^ 64) (hn : n < 2 ^ 64)
    (h : encodeUint m = encodeUint n) : m = n := by
  have hp : encodeUint m <+: encodeUint n := h ▸ prefix_refl _
  refine toBeBytes_injective (encodeString_selfDelimiting ?_ ?_ hp)
  · exact lt_of_le_of_lt (length_toBeBytes_le hm) (by decide)
  · exact lt_of_le_of_lt (length_toBeBytes_le hn) (by decide)

theorem encodeUint_small (hpos : 0 < n) (h : n < 128) : encodeUint n = [ofNat n] := by
  have hbytes : toBeBytes n = [ofNat n] := by
    rw [toBeBytes, digits_of_lt 256 n (by omega) (by omega)]
    rfl
  rw [encodeUint, hbytes]
  refine if_pos ?_
  change (ofNat n).toNat < 0x80
  rw [toNat_ofNat']
  omega

theorem encodeUint_large (hle : 128 ≤ n) (h : n < 2 ^ 64) :
    encodeUint n = ofNat (0x80 + (toBeBytes n).length) :: toBeBytes n ∧
      0 < (toBeBytes n).length := by
  have hvalue := ofBeBytes_toBeBytes n
  have hlen := length_toBeBytes_le h
  refine ⟨?_, ?_⟩
  · obtain ⟨b, hb, hlt, -⟩ | henc := encodeString_cases (show (toBeBytes n).length < 56 by omega)
    · rw [hb] at hvalue
      simp only [ofBeBytes, length_nil, pow_zero] at hvalue
      have hlt : b.toNat < 0x80 := hlt
      omega
    · exact henc
  rw [length_pos_iff]
  intro hnil
  rw [hnil] at hvalue
  simp only [ofBeBytes] at hvalue
  omega

/-- The place of a number in the order of the RLP. -/
def rlpRank (n : Nat) : Nat := if n = 0 then 128 else if n < 128 then n else n + 1

theorem encodeUint_lt (hm : m < 2 ^ 64) (hn : n < 2 ^ 64) (h : rlpRank m < rlpRank n) :
    encodeUint m < encodeUint n := by
  have hzero : encodeUint 0 = [0x80] := by decide
  unfold rlpRank at h
  by_cases hn0 : n = 0
  · -- single bytes come before the empty string
    subst hn0
    have hm0 : m ≠ 0 := fun hm0 => by simp [hm0] at h
    have hm128 : m < 128 := by
      by_contra hge
      rw [if_neg hm0, if_neg hge, if_pos rfl] at h
      omega
    rw [hzero, encodeUint_small (by omega) hm128]
    refine Lex.rel ?_
    change (ofNat m).toNat < 128
    rw [toNat_ofNat']
    omega
  · rw [if_neg hn0] at h
    by_cases hn128 : n < 128
    · rw [if_pos hn128] at h
      have hm0 : m ≠ 0 := fun hm0 => by
        rw [if_pos hm0] at h
        omega
      rw [if_neg hm0] at h
      have hm128 : m < 128 := by
        by_contra hge
        rw [if_neg hge] at h
        omega
      rw [if_pos hm128] at h
      rw [encodeUint_small (by omega) hm128, encodeUint_small (by omega) hn128]
      refine Lex.rel ?_
      change (ofNat m).toNat < (ofNat n).toNat
      rw [toNat_ofNat', toNat_ofNat']
      omega
    · obtain ⟨hencn, hposn⟩ := encodeUint_large (by omega) hn
      have hlenn := length_toBeBytes_le hn
      by_cases hm128 : m < 128
      · -- one byte, at most the code of the empty string
        have hhead : ∃ b : UInt8, encodeUint m = [b] ∧ b.toNat ≤ 128 := by
          by_cases hm0 : m = 0
          · exact ⟨0x80, by rw [hm0, hzero], by decide⟩
          · refine ⟨ofNat m, encodeUint_small (by omega) hm128, ?_⟩
            rw [toNat_ofNat']
            omega
        obtain ⟨b, hencm, hb⟩ := hhead
        rw [hencm, hencn]
        refine Lex.rel ?_
        change b.toNat < (ofNat (0x80 + (toBeBytes n).length)).toNat
        rw [toNat_stringCode (by omega)]
        omega
      · obtain ⟨hencm, hposm⟩ := encodeUint_large (by omega) hm
        have hlt : m < n := by
          rw [if_neg (by omega), if_neg hm128, if_neg hn128] at h
          omega
        have hmono := length_toBeBytes_mono hlt.le
        rw [hencm, hencn]
        by_cases hlen : (toBeBytes m).length = (toBeBytes n).length
        · rw [hlen]
          refine Lex.cons (lt_of_ofBeBytes_lt hlen ?_)
          rw [ofBeBytes_toBeBytes, ofBeBytes_toBeBytes]
          exact hlt
        refine Lex.rel ?_
        change (ofNat _).toNat < (ofNat _).toNat
        rw [toNat_stringCode (by omega), toNat_stringCode (by omega)]
        omega

end SparseMpt
