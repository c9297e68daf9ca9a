import EthDriver.OnesComplement
import EthDriver.PbufChain

namespace EthDriver.InetChksum

open EthDriver.Bytes EthDriver.OnesComplement EthDriver.PbufChain

def foldU32t (u : BitVec 32) : BitVec 32 := (u >>> 16) + (u &&& 0xffff#32)

/-- `SWAP_BYTES_IN_WORD`; the high half of the accumulator is dropped. -/
def swapBytesInWord (w : BitVec 32) : BitVec 32 :=
  ((w &&& 0xff#32) <<< 8) ||| ((w &&& 0xff00#32) >>> 8)

def lwipHtons (n : BitVec 16) : BitVec 16 :=
  ((n &&& 0xff#16) <<< 8) ||| ((n &&& 0xff00#16) >>> 8)

def load16 (b₀ b₁ : UInt8) : BitVec 16 := BitVec.ofNat 16 (word b₀ b₁)

def load32 (b₀ b₁ b₂ b₃ : UInt8) : BitVec 32 := BitVec.ofNat 32 (word b₀ b₁ + 65536 * word b₂ b₃)

@[simp] theorem load16_toNat (b₀ b₁ : UInt8) : (load16 b₀ b₁).toNat = word b₀ b₁ :=
  Nat.mod_eq_of_lt (word_lt b₀ b₁)

@[simp] theorem load32_toNat (b₀ b₁ b₂ b₃ : UInt8) :
    (load32 b₀ b₁ b₂ b₃).toNat = word b₀ b₁ + 65536 * word b₂ b₃ := by
  have hlow := word_lt b₀ b₁
  have hhigh := word_lt b₂ b₃
  exact Nat.mod_eq_of_lt (by omega)

theorem and_low (w k : ℕ) (u : BitVec w) (h : k ≤ w) :
    (u &&& BitVec.ofNat w (2 ^ k - 1)).toNat = u.toNat % 2 ^ k := by
  have hpow : 2 ^ k ≤ 2 ^ w := Nat.pow_le_pow_right (by decide) h
  have hpos := Nat.two_pow_pos k
  rw [BitVec.toNat_and, BitVec.toNat_ofNat, Nat.mod_eq_of_lt (by omega),
    Nat.and_two_pow_sub_one_eq_mod]

theorem foldU32t_toNat (u : BitVec 32) :
    (foldU32t u).toNat = u.toNat / 65536 + u.toNat % 65536 := by
  have hlow : (u &&& 0xffff#32).toNat = u.toNat % 65536 := and_low 32 16 u (by decide)
  have hlt := u.isLt
  rw [foldU32t, BitVec.toNat_add, hlow, BitVec.toNat_ushiftRight, Nat.shiftRight_eq_div_pow]
  omega

theorem swap_bytes (n : ℕ) :
    (n &&& 0xff) <<< 8 ||| (n &&& 0xff00) >>> 8 = n % 256 * 256 + n / 256 % 256 := by
  have hlow : n &&& 0xff = n % 256 := Nat.and_two_pow_sub_one_eq_mod n 8
  have hhigh : (n &&& 0xff00) >>> 8 = n / 256 % 256 := by
    rw [Nat.shiftRight_and_distrib, Nat.shiftRight_eq_div_pow]
    exact Nat.and_two_pow_sub_one_eq_mod _ 8
  have hlt : n / 256 % 256 < 2 ^ 8 := Nat.mod_lt _ (by decide)
  rw [hlow, hhigh, ← Nat.shiftLeft_add_eq_or_of_lt hlt, Nat.shiftLeft_eq]

theorem swapBytesInWord_toNat (w : BitVec 32) :
    (swapBytesInWord w).toNat = w.toNat % 256 * 256 + w.toNat / 256 % 256 := by
  have hlow : (w &&& 0xff#32).toNat = w.toNat % 256 := and_low 32 8 w (by decide)
  have hshift : ((w &&& 0xff#32) <<< 8).toNat = (w.toNat &&& 0xff) <<< 8 := by
    rw [BitVec.toNat_shiftLeft, hlow, Nat.and_two_pow_sub_one_eq_mod _ 8, Nat.shiftLeft_eq]
    omega
  rw [swapBytesInWord, BitVec.toNat_or, hshift, BitVec.toNat_ushiftRight, BitVec.toNat_and]
  exact swap_bytes w.toNat

theorem lwipHtons_toNat (n : BitVec 16) :
    (lwipHtons n).toNat = n.toNat % 256 * 256 + n.toNat / 256 := by
  have hlow : (n &&& 0xff#16).toNat = n.toNat % 256 := and_low 16 8 n (by decide)
  have hshift : ((n &&& 0xff#16) <<< 8).toNat = (n.toNat &&& 0xff) <<< 8 := by
    rw [BitVec.toNat_shiftLeft, hlow, Nat.and_two_pow_sub_one_eq_mod _ 8, Nat.shiftLeft_eq]
    omega
  have hlt := n.isLt
  rw [lwipHtons, BitVec.toNat_or, hshift, BitVec.toNat_ushiftRight, BitVec.toNat_and]
  apply (swap_bytes n.toNat).trans
  omega

/-- The loop over the aligned words: what is left has at most one byte. -/
def addWords (sum : BitVec 32) : List UInt8 → BitVec 32 × List UInt8
  | b₀ :: b₁ :: rest => addWords (sum + (load16 b₀ b₁).setWidth 32) rest
  | rest => (sum, rest)

/-- The end of versions 2 and 3: the end bytes are added, the carries folded in,
and an odd start is made up for by a swap. -/
def finish (sum : BitVec 32) (t : BitVec 16) (odd : Bool) : BitVec 16 :=
  let sum := foldU32t (foldU32t (sum + t.setWidth 32))
  let sum := if odd then swapBytesInWord sum else sum
  sum.setWidth 16

/-- `lwip_standard_chksum` in the version that is compiled, number 2. The address
only tells where the aligned words are. -/
def lwipStandardChksum (dataptr : ℕ) (data : List UInt8) : BitVec 16 :=
  let odd := dataptr % 2 == 1
  -- with an odd start the first byte goes into the high half of `t`
  let t₁ := if odd then data.headD 0 else 0
  let pb := if odd then data.tail else data
  let (sum, rest) := addWords 0#32 pb
  finish sum (load16 (rest.headD 0) t₁) odd

/-- The loop of version 1, which takes the first byte of a word as the higher one. -/
def addOctets (acc : BitVec 32) : List UInt8 → BitVec 32
  | b₀ :: b₁ :: rest => addOctets (acc + (load16 b₁ b₀).setWidth 32) rest
  | [b] => acc + (load16 0 b).setWidth 32
  | [] => acc

def lwipStandardChksum1 (data : List UInt8) : BitVec 16 :=
  let acc := foldU32t (addOctets 0#32 data)
  let acc := if acc &&& 0xffff0000#32 != 0 then foldU32t acc else acc
  lwipHtons (acc.setWidth 16)

def addCarry (sum x : BitVec 32) : BitVec 32 :=
  let tmp := sum + x
  if tmp < sum then tmp + 1#32 else tmp

/-- The unrolled loop of version 3, eight bytes a turn. -/
def addLongs (sum : BitVec 32) : List UInt8 → BitVec 32 × List UInt8
  | b₀ :: b₁ :: b₂ :: b₃ :: b₄ :: b₅ :: b₆ :: b₇ :: rest =>
    addLongs (addCarry (addCarry sum (load32 b₀ b₁ b₂ b₃)) (load32 b₄ b₅ b₆ b₇)) rest
  | rest => (sum, rest)

/-- Version 3 may take a word before the first address that is a multiple of four. -/
def alignLong (ps : ℕ) (pb : List UInt8) : BitVec 32 × List UInt8 :=
  match ps % 4 != 0, pb with
  | true, b₀ :: b₁ :: rest => ((load16 b₀ b₁).setWidth 32, rest)
  | _, pb => (0#32, pb)

def lwipStandardChksum3 (dataptr : ℕ) (data : List UInt8) : BitVec 16 :=
  let odd := dataptr % 2 == 1
  let t₁ := if odd then data.headD 0 else 0
  let pb := if odd then data.tail else data
  let ps := if odd && 0 < data.length then dataptr + 1 else dataptr
  let (sum, pl) := alignLong ps pb
  let (sum, ps) := addLongs sum pl
  let (sum, rest) := addWords (foldU32t sum) ps
  finish sum (load16 (rest.headD 0) t₁) odd

theorem ofLe_tail {rest : List UInt8} (h : rest.length ≤ 1) : ofLe rest = (rest.headD 0).toNat := by
  match rest, h with
  | [], _ => rfl
  | [b], _ => simp [ofLe]

/-- No carry out of the accumulator is lost as long as it has room for all words. -/
theorem addWords_spec (sum : BitVec 32) (data : List UInt8)
    (h : sum.toNat + 65535 * (data.length / 2) < 4294967296) :
    Same ((addWords sum data).1.toNat + ofLe (addWords sum data).2) (sum.toNat + ofLe data) ∧
      (addWords sum data).1.toNat ≤ sum.toNat + 65535 * (data.length / 2) ∧
      (addWords sum data).2.length ≤ 1 := by
  induction data using internetSum.induct generalizing sum with
  | case1 => exact ⟨Same.refl _, Nat.le_refl _, Nat.zero_le 1⟩
  | case2 b => exact ⟨Same.refl _, Nat.le_add_right _ _, Nat.le_refl 1⟩
  | case3 b₀ b₁ rest ih =>
    have hword := word_lt b₀ b₁
    have hhalf : (b₀ :: b₁ :: rest).length / 2 = rest.length / 2 + 1 := by
      simp only [List.length_cons]
      omega
    rw [hhalf] at h ⊢
    have hadd : (sum + (load16 b₀ b₁).setWidth 32).toNat = sum.toNat + word b₀ b₁ := by
      rw [BitVec.toNat_add, BitVec.toNat_setWidth, load16_toNat]
      omega
    rw [addWords]
    obtain ⟨hsame, hle, hlen⟩ := ih _ (by rw [hadd]; omega)
    rw [hadd] at hsame hle
    refine ⟨hsame.trans ?_, by omega, hlen⟩
    rw [Nat.add_assoc]
    exact (Same.refl _).add (same_ofLe_cons b₀ b₁ rest)

theorem fold_twice (u : BitVec 32) :
    Same (foldU32t (foldU32t u)).toNat u.toNat ∧ (foldU32t (foldU32t u)).toNat < 65536 := by
  have hlt := u.isLt
  rw [foldU32t_toNat, foldU32t_toNat]
  exact ⟨(same_fold _).trans (same_fold _), by omega⟩

theorem swap_same {w : BitVec 32} (h : w.toNat < 65536) :
    Same (swapBytesInWord w).toNat (256 * w.toNat) ∧ (swapBytesInWord w).toNat < 65536 := by
  rw [swapBytesInWord_toNat]
  have hdiv : w.toNat / 256 % 256 = w.toNat / 256 := by omega
  rw [hdiv]
  exact ⟨same_swap h, by omega⟩

theorem finish_spec {sum : BitVec 32} {t : BitVec 16} (odd : Bool)
    (h : sum.toNat + t.toNat < 4294967296) :
    Same (finish sum t odd).toNat ((if odd then 256 else 1) * (sum.toNat + t.toNat)) := by
  have hadd : (sum + t.setWidth 32).toNat = sum.toNat + t.toNat := by
    rw [BitVec.toNat_add, BitVec.toNat_setWidth]
    omega
  obtain ⟨hsame, hlt⟩ := fold_twice (sum + t.setWidth 32)
  rw [hadd] at hsame
  cases odd with
  | false =>
    simp only [finish, Bool.false_eq_true, if_false, BitVec.toNat_setWidth, Nat.one_mul]
    rwa [Nat.mod_eq_of_lt hlt]
  | true =>
    obtain ⟨hswap, hswap'⟩ := swap_same hlt
    simp only [finish, if_true, BitVec.toNat_setWidth]
    rw [Nat.mod_eq_of_lt hswap']
    exact hswap.trans (hsame.mul_left 256)

/-- An odd start turns the sum by one byte, which the swap at the end undoes. -/
theorem odd_start (b : UInt8) (rest : List UInt8) :
    Same (256 * (256 * b.toNat + ofLe rest)) (ofLe (b :: rest)) := by
  simp only [ofLe]
  constructor <;> omega

/-- What versions 2 and 3 have in common: once all but the end bytes are in the
accumulator, the result is the Internet sum of the whole buffer. -/
theorem finish_eq (odd : Bool) {data rest : List UInt8} {sum : BitVec 32}
    (hsame : Same (sum.toNat + ofLe rest) (ofLe (if odd then data.tail else data)))
    (hlen : rest.length ≤ 1) (hroom : sum.toNat < 4294901761) :
    (finish sum (load16 (rest.headD 0) (if odd then data.headD 0 else 0)) odd).toNat =
      internetSum data := by
  apply eq_internetSum _ (BitVec.isLt _)
  have ht := word_lt (rest.headD 0) (if odd then data.headD 0 else 0)
  apply (finish_spec odd (by rw [load16_toNat]; omega)).trans
  rw [load16_toNat, word, ← ofLe_tail hlen]
  cases odd with
  | false => simpa using hsame
  | true =>
    simp only [if_true] at hsame ⊢
    have hsum := hsame.add (Same.refl (256 * (data.headD 0).toNat))
    rw [Nat.add_assoc] at hsum
    apply (hsum.mul_left 256).trans
    cases data with
    | nil => exact Same.refl 0
    | cons b rest =>
      rw [Nat.add_comm]
      exact odd_start b rest

/-- `lwip_standard_chksum` is the Internet sum of the bytes wherever they lie,
for all lengths that its comment promises. -/
theorem lwipStandardChksum_eq (dataptr : ℕ) {data : List UInt8} (h : data.length ≤ 0x20000) :
    (lwipStandardChksum dataptr data).toNat = internetSum data := by
  have hpb : (if dataptr % 2 == 1 then data.tail else data).length ≤ 0x20000 := by
    split
    · rw [List.length_tail]
      omega
    · exact h
  have hzero : (0#32).toNat = 0 := rfl
  obtain ⟨hsame, hle, hlen⟩ := addWords_spec 0#32 (if dataptr % 2 == 1 then data.tail else data)
    (by rw [hzero]; omega)
  rw [hzero, Nat.zero_add] at hsame hle
  exact finish_eq _ hsame hlen (by omega)

theorem same_load32 (b₀ b₁ b₂ b₃ : UInt8) (rest : List UInt8) :
    Same ((load32 b₀ b₁ b₂ b₃).toNat + ofLe rest) (ofLe (b₀ :: b₁ :: b₂ :: b₃ :: rest)) := by
  simp only [load32_toNat, ofLe, word]
  constructor <;> omega

theorem addCarry_same (sum x : BitVec 32) :
    Same (addCarry sum x).toNat (sum.toNat + x.toNat) := by
  have hsum := sum.isLt
  have hx := x.isLt
  have hadd : (sum + x).toNat = (sum.toNat + x.toNat) % 4294967296 := BitVec.toNat_add sum x
  simp only [addCarry, BitVec.lt_def]
  split
  · rw [BitVec.toNat_add, hadd]
    constructor <;> simp <;> omega
  · rw [hadd]
    constructor <;> omega

theorem addLongs_spec (sum : BitVec 32) (data : List UInt8) :
    Same ((addLongs sum data).1.toNat + ofLe (addLongs sum data).2) (sum.toNat + ofLe data) ∧
      (addLongs sum data).2.length ≤ 7 := by
  induction sum, data using addLongs.induct with
  | case1 sum b₀ b₁ b₂ b₃ b₄ b₅ b₆ b₇ rest ih =>
    rw [addLongs]
    refine ⟨ih.1.trans ?_, ih.2⟩
    have hping := addCarry_same sum (load32 b₀ b₁ b₂ b₃)
    have hpong := addCarry_same (addCarry sum (load32 b₀ b₁ b₂ b₃)) (load32 b₄ b₅ b₆ b₇)
    apply ((hpong.trans (hping.add (Same.refl _))).add (Same.refl _)).trans
    rw [Nat.add_assoc, Nat.add_assoc]
    apply (Same.refl _).add
    apply ((Same.refl _).add (same_load32 b₄ b₅ b₆ b₇ rest)).trans
    exact same_load32 b₀ b₁ b₂ b₃ _
  | case2 sum rest h =>
    rw [addLongs.eq_2 sum rest h]
    refine ⟨Same.refl _, ?_⟩
    rcases rest with _ | ⟨b₀, _ | ⟨b₁, _ | ⟨b₂, _ | ⟨b₃, _ | ⟨b₄, _ | ⟨b₅, _ | ⟨b₆, _ |
      ⟨b₇, rest⟩⟩⟩⟩⟩⟩⟩⟩
    all_goals first | exact (h _ _ _ _ _ _ _ _ _ rfl).elim | simp

theorem alignLong_spec (ps : ℕ) (pb : List UInt8) :
    Same ((alignLong ps pb).1.toNat + ofLe (alignLong ps pb).2) (ofLe pb) := by
  unfold alignLong
  split
  · rw [BitVec.toNat_setWidth, load16_toNat, Nat.mod_eq_of_lt (by have := word_lt; grind)]
    apply same_ofLe_cons
  · simpa using Same.refl _

theorem addLongs_addWords (sum : BitVec 32) (pl : List UInt8) :
    let r := addLongs sum pl
    let q := addWords (foldU32t r.1) r.2
    Same (q.1.toNat + ofLe q.2) (sum.toNat + ofLe pl) ∧ q.1.toNat < 4294901761 ∧
      q.2.length ≤ 1 := by
  obtain ⟨hlong, hseven⟩ := addLongs_spec sum pl
  generalize addLongs sum pl = r at hlong hseven
  have hfold : (foldU32t r.1).toNat ≤ 131070 := by
    have hlt := r.1.isLt
    rw [foldU32t_toNat]
    omega
  obtain ⟨hsame, hle, hlen⟩ := addWords_spec (foldU32t r.1) r.2 (by omega)
  refine ⟨hsame.trans ?_, Nat.lt_of_le_of_lt hle (by omega), hlen⟩
  rw [foldU32t_toNat]
  exact ((same_fold _).add (Same.refl _)).trans hlong

theorem lwipStandardChksum3_eq (dataptr : ℕ) (data : List UInt8) :
    (lwipStandardChksum3 dataptr data).toNat = internetSum data := by
  have halign := alignLong_spec
    (if dataptr % 2 == 1 && decide (0 < data.length) then dataptr + 1 else dataptr)
    (if dataptr % 2 == 1 then data.tail else data)
  obtain ⟨hsame, hroom, hlen⟩ := addLongs_addWords _ _
  exact finish_eq _ (hsame.trans halign) hlen hroom

theorem addOctets_spec (acc : BitVec 32) (data : List UInt8)
    (h : acc.toNat + 65535 * ((data.length + 1) / 2) < 4294967296) :
    Same (addOctets acc data).toNat (acc.toNat + 256 * ofLe data) := by
  induction data using internetSum.induct generalizing acc with
  | case1 => exact Same.refl _
  | case2 b =>
    have hword := word_lt 0 b
    rw [List.length_singleton] at h
    have hadd : (acc + (load16 0 b).setWidth 32).toNat = acc.toNat + word 0 b := by
      rw [BitVec.toNat_add, BitVec.toNat_setWidth, load16_toNat]
      omega
    rw [addOctets, hadd]
    simpa [word, ofLe] using Same.refl _
  | case3 b₀ b₁ rest ih =>
    have hword := word_lt b₁ b₀
    simp only [List.length_cons] at h
    have hadd : (acc + (load16 b₁ b₀).setWidth 32).toNat = acc.toNat + word b₁ b₀ := by
      rw [BitVec.toNat_add, BitVec.toNat_setWidth, load16_toNat]
      omega
    rw [addOctets]
    apply (ih _ (by rw [hadd]; omega)).trans
    rw [hadd, Nat.add_assoc]
    apply (Same.refl _).add
    simp only [word, ofLe]
    constructor <;> omega

theorem small_of_high_clear {u : BitVec 32} (h : (u &&& 0xffff0000#32 != 0) = false) :
    u.toNat < 65536 := by
  have hclear : u &&& 0xffff0000#32 = 0#32 := by simpa using h
  have hhigh : (u.toNat &&& 0xffff0000) >>> 16 = u.toNat / 65536 % 65536 := by
    rw [Nat.shiftRight_and_distrib, Nat.shiftRight_eq_div_pow]
    exact Nat.and_two_pow_sub_one_eq_mod _ 16
  have hnat : u.toNat &&& 0xffff0000 = 0 := congrArg BitVec.toNat hclear
  rw [hnat] at hhigh
  have hlt := u.isLt
  omega

theorem lwipStandardChksum1_eq {data : List UInt8} (h : data.length ≤ 0x20000) :
    (lwipStandardChksum1 data).toNat = internetSum data := by
  apply eq_internetSum _ (BitVec.isLt _)
  have hzero : (0#32).toNat = 0 := rfl
  have hsum := addOctets_spec 0#32 data (by rw [hzero]; omega)
  rw [hzero, Nat.zero_add] at hsum
  unfold lwipStandardChksum1
  generalize addOctets 0#32 data = acc at hsum
  obtain ⟨r, hr, hsame, hlt⟩ : ∃ r : BitVec 32,
      r = (if foldU32t acc &&& 0xffff0000#32 != 0 then foldU32t (foldU32t acc) else foldU32t acc) ∧
        Same r.toNat acc.toNat ∧ r.toNat < 65536 := by
    cases hhigh : foldU32t acc &&& 0xffff0000#32 != 0 with
    | true => exact ⟨_, by simp, fold_twice acc⟩
    | false =>
      refine ⟨_, by simp, ?_, small_of_high_clear hhigh⟩
      rw [foldU32t_toNat]
      exact same_fold _
  simp only [← hr]
  rw [lwipHtons_toNat, BitVec.toNat_setWidth, Nat.mod_eq_of_lt hlt]
  apply (same_swap hlt).trans
  apply ((hsame.trans hsum).mul_left 256).trans
  rw [← Nat.mul_assoc]
  exact same_weight_even 2 _ rfl

/-- The three versions of the source are interchangeable for every buffer. -/
theorem versions_agree (dataptr : ℕ) {data : List UInt8} (h : data.length ≤ 0x20000) :
    lwipStandardChksum dataptr data = lwipStandardChksum1 data ∧
      lwipStandardChksum dataptr data = lwipStandardChksum3 dataptr data := by
  have hcompiled := lwipStandardChksum_eq dataptr h
  exact ⟨BitVec.eq_of_toNat_eq (hcompiled.trans (lwipStandardChksum1_eq h).symm),
    BitVec.eq_of_toNat_eq (hcompiled.trans (lwipStandardChksum3_eq dataptr data).symm)⟩

theorem versions_agree_unaligned :
    lwipStandardChksum 3 [1, 2, 3, 4, 5, 6, 7, 8, 9, 10, 11] =
        lwipStandardChksum1 [1, 2, 3, 4, 5, 6, 7, 8, 9, 10, 11] ∧
      lwipStandardChksum 3 [1, 2, 3, 4, 5, 6, 7, 8, 9, 10, 11] =
        lwipStandardChksum3 3 [1, 2, 3, 4, 5, 6, 7, 8, 9, 10, 11] :=
  versions_agree 3 (by decide)

/-- The loop over a chain that `inet_chksum_pbuf` and `inet_cksum_pseudo_base`
share. After an odd number of bytes the accumulator is kept with its bytes exchanged. -/
def chainSum (acc : BitVec 32) (swapped : Bool) : List Seg → BitVec 32
  | [] => if swapped then swapBytesInWord acc else acc
  | q :: next =>
    let acc := foldU32t (acc + (lwipStandardChksum q.payload q.data).setWidth 32)
    if q.data.length % 2 != 0 then chainSum (swapBytesInWord acc) (!swapped) next
    else chainSum acc swapped next

def inetChksum (dataptr : ℕ) (data : List UInt8) : BitVec 16 := ~~~ lwipStandardChksum dataptr data

def inetChksumPbuf (p : List Seg) : BitVec 16 :=
  (~~~ (chainSum 0#32 false p &&& 0xffff#32)).setWidth 16

def inetCksumPseudoBase (p : List Seg) (proto : BitVec 8) (protoLen : BitVec 16)
    (acc : BitVec 32) : BitVec 16 :=
  let acc := chainSum acc false p
  let acc := acc + (lwipHtons (proto.setWidth 16)).setWidth 32
  let acc := acc + (lwipHtons protoLen).setWidth 32
  let acc := foldU32t (foldU32t acc)
  (~~~ (acc &&& 0xffff#32)).setWidth 16

/-- The addresses are in network byte order, as they are loaded from a header. -/
def inetChksumPseudo (p : List Seg) (proto : BitVec 8) (protoLen : BitVec 16)
    (src dest : BitVec 32) : BitVec 16 :=
  let acc := src &&& 0xffff#32
  let acc := acc + ((src >>> 16) &&& 0xffff#32)
  let acc := acc + (dest &&& 0xffff#32)
  let acc := acc + ((dest >>> 16) &&& 0xffff#32)
  inetCksumPseudoBase p proto protoLen (foldU32t (foldU32t acc))

theorem chainSum_step (acc : BitVec 32) (q : Seg) (h : acc.toNat < 65536) :
    let acc' := foldU32t (acc + (lwipStandardChksum q.payload q.data).setWidth 32)
    Same acc'.toNat (acc.toNat + ofLe q.data) ∧ acc'.toNat < 65536 := by
  have hlen := q.len_lt
  have hsum := lwipStandardChksum_eq q.payload (show q.data.length ≤ 0x20000 by omega)
  have hlt := internetSum_lt q.data
  have hadd : (acc + (lwipStandardChksum q.payload q.data).setWidth 32).toNat =
      acc.toNat + internetSum q.data := by
    rw [BitVec.toNat_add, BitVec.toNat_setWidth, hsum]
    omega
  dsimp only
  rw [foldU32t_toNat, hadd]
  refine ⟨(same_fold _).trans ?_, by omega⟩
  exact (Same.refl _).add (same_internetSum q.data)

theorem chainSum_spec (acc : BitVec 32) (swapped : Bool) (p : List Seg) (h : acc.toNat < 65536) :
    Same (chainSum acc swapped p).toNat
        ((if swapped then 256 else 1) * (acc.toNat + ofLe (bytes p))) ∧
      (chainSum acc swapped p).toNat < 65536 := by
  induction p generalizing acc swapped with
  | nil =>
    cases swapped with
    | false => simpa [chainSum, bytes, ofLe] using ⟨Same.refl _, h⟩
    | true => simpa [chainSum, bytes, ofLe] using swap_same h
  | cons q next ih =>
    obtain ⟨hsame, hlt⟩ := chainSum_step acc q h
    have hbytes : ofLe (bytes (q :: next)) =
        ofLe q.data + 256 ^ q.data.length * ofLe (bytes next) := by
      rw [bytes_cons, ofLe_append]
    rw [chainSum, hbytes, ← Nat.add_assoc]
    generalize foldU32t (acc + (lwipStandardChksum q.payload q.data).setWidth 32) = acc'
      at hsame hlt
    cases hodd : q.data.length % 2 != 0 with
    | false =>
      obtain ⟨hrest, hrest'⟩ := ih acc' swapped hlt
      refine ⟨hrest.trans ?_, hrest'⟩
      apply Same.mul_left
      exact hsame.add (same_weight_even _ _ (by simpa using hodd)).symm
    | true =>
      obtain ⟨hswap, hswap'⟩ := swap_same hlt
      obtain ⟨hrest, hrest'⟩ := ih (swapBytesInWord acc') (!swapped) hswap'
      refine ⟨hrest.trans ?_, hrest'⟩
      have hacc := hswap.trans (hsame.mul_left 256)
      have hnext := same_weight_odd q.data.length (ofLe (bytes next)) (by simpa using hodd)
      apply ((hacc.add (Same.refl _)).mul_left _).trans
      apply Same.trans _ (((Same.refl _).add hnext.symm).mul_left _)
      generalize acc.toNat + ofLe q.data = x
      generalize ofLe (bytes next) = y
      cases swapped with
      | false =>
        simp only [Bool.not_false, if_true, Bool.false_eq_true, if_false, Nat.one_mul]
        constructor <;> omega
      | true =>
        simp only [Bool.not_true, if_true, Bool.false_eq_true, if_false, Nat.one_mul]
        constructor <;> omega

theorem complement_toNat {u : BitVec 32} (h : u.toNat < 65536) :
    ((~~~ (u &&& 0xffff#32)).setWidth 16).toNat = 65535 - u.toNat := by
  have hlow : (u &&& 0xffff#32).toNat = u.toNat % 65536 := and_low 32 16 u (by decide)
  rw [BitVec.toNat_setWidth, BitVec.toNat_not, hlow]
  omega

theorem inetChksum_eq (dataptr : ℕ) {data : List UInt8} (h : data.length < 65536) :
    (inetChksum dataptr data).toNat = internetChecksum data := by
  rw [inetChksum, BitVec.toNat_not, lwipStandardChksum_eq dataptr (by omega)]
  rfl

theorem inetChksumPbuf_eq (p : List Seg) :
    (inetChksumPbuf p).toNat = internetChecksum (bytes p) := by
  obtain ⟨hsame, hlt⟩ := chainSum_spec 0#32 false p (by decide)
  have hsum := eq_internetSum (show Same _ (ofLe (bytes p)) by simpa using hsame) hlt
  rw [inetChksumPbuf, complement_toNat hlt, internetChecksum, hsum]

def pseudoHeader (proto : BitVec 8) (protoLen : BitVec 16) (src dest : BitVec 32) : List UInt8 :=
  read (le src.toNat) 0 4 ++ read (le dest.toNat) 0 4 ++
    [0, UInt8.ofBitVec proto, UInt8.ofNat (protoLen.toNat / 256), UInt8.ofNat protoLen.toNat]

theorem addresses_same (src dest : BitVec 32) :
    let acc := (src &&& 0xffff#32) + ((src >>> 16) &&& 0xffff#32) + (dest &&& 0xffff#32) +
      ((dest >>> 16) &&& 0xffff#32)
    Same (foldU32t (foldU32t acc)).toNat (src.toNat + 4294967296 * dest.toNat) ∧
      (foldU32t (foldU32t acc)).toNat < 65536 := by
  have hlow : ∀ u : BitVec 32, (u &&& 0xffff#32).toNat = u.toNat % 65536 := fun u =>
    and_low 32 16 u (by decide)
  have hhigh : ∀ u : BitVec 32, ((u >>> 16) &&& 0xffff#32).toNat = u.toNat / 65536 := by
    intro u
    have hlt := u.isLt
    rw [hlow, BitVec.toNat_ushiftRight, Nat.shiftRight_eq_div_pow]
    exact Nat.mod_eq_of_lt (by omega)
  intro acc
  have hacc : acc.toNat = src.toNat / 65536 + src.toNat % 65536 +
      (dest.toNat / 65536 + dest.toNat % 65536) := by
    have hsrc := src.isLt
    have hdest := dest.isLt
    dsimp only [acc]
    rw [BitVec.toNat_add, BitVec.toNat_add, BitVec.toNat_add, hhigh src, hhigh dest, hlow src,
      hlow dest]
    omega
  obtain ⟨hsame, hlt⟩ := fold_twice acc
  refine ⟨hsame.trans ?_, hlt⟩
  rw [hacc]
  exact (same_fold _).add ((same_fold _).trans (same_weight_even 4 _ rfl).symm)

theorem same_pseudoHeader (proto : BitVec 8) (protoLen : BitVec 16) (src dest : BitVec 32) :
    Same (ofLe (pseudoHeader proto protoLen src dest))
      (src.toNat + 4294967296 * dest.toNat +
        ((lwipHtons (proto.setWidth 16)).toNat + (lwipHtons protoLen).toNat)) := by
  have hproto := proto.isLt
  have hlen := protoLen.isLt
  have hproto' : (lwipHtons (proto.setWidth 16)).toNat = 256 * proto.toNat := by
    rw [lwipHtons_toNat, BitVec.toNat_setWidth]
    omega
  have hsrc : ofLe (read (le src.toNat) 0 4) = src.toNat := by
    rw [ofLe_read_le]
    exact Nat.mod_eq_of_lt src.isLt
  have hdest : ofLe (read (le dest.toNat) 0 4) = dest.toNat := by
    rw [ofLe_read_le]
    exact Nat.mod_eq_of_lt dest.isLt
  rw [pseudoHeader, ofLe_append, ofLe_append, hsrc, hdest, hproto', lwipHtons_toNat,
    List.length_append, read_length, read_length]
  apply (Same.refl _).add
  apply (same_weight_even 8 _ rfl).trans
  have hhigh : protoLen.toNat / 256 % 256 = protoLen.toNat / 256 := Nat.mod_eq_of_lt (by omega)
  simp only [ofLe, UInt8.toNat_ofBitVec, UInt8.toNat_ofNat', UInt8.toNat_zero, Nat.reducePow, hhigh]
  generalize protoLen.toNat / 256 = x
  generalize protoLen.toNat % 256 = y
  constructor <;> omega

theorem inetCksumPseudoBase_same {p : List Seg} {acc : BitVec 32} (proto : BitVec 8)
    (protoLen : BitVec 16) (h : acc.toNat < 65536) :
    ∃ r < 65536, (inetCksumPseudoBase p proto protoLen acc).toNat = 65535 - r ∧
      Same r (acc.toNat + ofLe (bytes p) +
        ((lwipHtons (proto.setWidth 16)).toNat + (lwipHtons protoLen).toNat)) := by
  obtain ⟨hchain, hchain'⟩ := chainSum_spec acc false p h
  unfold inetCksumPseudoBase
  dsimp only
  generalize chainSum acc false p = sum at hchain hchain'
  have hproto := (lwipHtons (proto.setWidth 16)).isLt
  have hlen := (lwipHtons protoLen).isLt
  generalize lwipHtons (proto.setWidth 16) = x at hproto
  generalize lwipHtons protoLen = y at hlen
  have hadd : (sum + x.setWidth 32 + y.setWidth 32).toNat = sum.toNat + (x.toNat + y.toNat) := by
    rw [BitVec.toNat_add, BitVec.toNat_add, BitVec.toNat_setWidth, BitVec.toNat_setWidth]
    omega
  obtain ⟨hfold, hfold'⟩ := fold_twice (sum + x.setWidth 32 + y.setWidth 32)
  refine ⟨_, hfold', complement_toNat hfold', hfold.trans ?_⟩
  rw [hadd]
  simp only [Bool.false_eq_true, if_false, Nat.one_mul] at hchain
  exact hchain.add (Same.refl _)

theorem inetChksumPseudo_eq (p : List Seg) (proto : BitVec 8) (protoLen : BitVec 16)
    (src dest : BitVec 32) : (inetChksumPseudo p proto protoLen src dest).toNat =
      internetChecksum (pseudoHeader proto protoLen src dest ++ bytes p) := by
  obtain ⟨haddr, haddr'⟩ := addresses_same src dest
  obtain ⟨r, hr, heq, hsame⟩ := inetCksumPseudoBase_same (p := p) proto protoLen haddr'
  have hheader := same_pseudoHeader proto protoLen src dest
  have hlength : (pseudoHeader proto protoLen src dest).length = 12 := by simp [pseudoHeader]
  have hsum : r = internetSum (pseudoHeader proto protoLen src dest ++ bytes p) := by
    apply eq_internetSum _ hr
    rw [ofLe_append, hlength]
    apply hsame.trans
    rw [Nat.add_right_comm]
    apply Same.add _ (same_weight_even 12 _ rfl).symm
    exact (haddr.add (Same.refl _)).trans hheader.symm
  unfold inetChksumPseudo internetChecksum
  rw [heq, hsum]

/-- The checksums that are computed over a chain are those of the bytes in it,
wherever the parts lie and however the bytes are divided among them. -/
theorem checksum_of_chain (p q : List Seg) (h : bytes p = bytes q) :
    inetChksumPbuf p = inetChksumPbuf q ∧ (inetChksumPbuf p).toNat = internetChecksum (bytes p) ∧
      ∀ (proto : BitVec 8) (protoLen : BitVec 16) (src dest : BitVec 32),
        inetChksumPseudo p proto protoLen src dest = inetChksumPseudo q proto protoLen src dest ∧
        (inetChksumPseudo p proto protoLen src dest).toNat =
          internetChecksum (pseudoHeader proto protoLen src dest ++ bytes p) := by
  refine ⟨?_, inetChksumPbuf_eq p, ?_⟩
  · apply BitVec.eq_of_toNat_eq
    rw [inetChksumPbuf_eq, inetChksumPbuf_eq, h]
  · intro proto protoLen src dest
    refine ⟨?_, inetChksumPseudo_eq p proto protoLen src dest⟩
    apply BitVec.eq_of_toNat_eq
    rw [inetChksumPseudo_eq, inetChksumPseudo_eq, h]

theorem checksum_of_parts :
    inetChksumPbuf [⟨0, [1, 2, 3, 4, 5], by decide⟩] =
      inetChksumPbuf [⟨7, [1], by decide⟩, ⟨20, [2, 3, 4], by decide⟩, ⟨31, [5], by decide⟩] :=
  (checksum_of_chain _ _ rfl).1

end EthDriver.InetChksum
