import Mathlib
import Clamm.Trade.Assembly

/-!
# What the address of a pool tells

A pool is deployed where its key leads through two hashes. The key is three words of 32 bytes side by
side, so it gives back the two token addresses and the fee, and as long as neither hash collides the
deployment address gives back the key. A list of addresses is then free of repeats exactly if no two
of the pools agree in both tokens and the fee.

Whether addresses repeat is found out by sorting them and leaving one of each run of equals, which
shortens the list exactly if one of them occurs twice.

* `Keccak.bytes_injective`, `poolKey_inj`: nothing is lost in the encoding.
* `padded_eq`, `Pool.deployedAddress_eq`: words padded on the left are words.
* `allDistinct_eq`: sorting and comparing neighbours finds the repeats.
* `Pool.nodup_addresses_iff`: distinct addresses are distinct pools.
-/

namespace Clamm

/-! ## Bytes -/

namespace Keccak

theorem length_bytes {w : ℕ} (x : BitVec w) : (bytes x).length = w / 8 := by
  simp [bytes]

/-- A bit of a number is one of its bytes'. -/
theorem testBit_of_byte (n i : ℕ) : (UInt8.ofNat (n >>> (8 * (i / 8)))).toNat.testBit (i % 8) =
    n.testBit i := by
  have hlow : i % 8 < 8 := Nat.mod_lt i (by decide)
  rw [UInt8.toNat_ofNat', Nat.testBit_mod_two_pow, Nat.testBit_shiftRight, Nat.div_add_mod]
  simp [hlow]

/-- Whole bytes hold a word with all of its bits. -/
theorem bytes_injective {w : ℕ} (hw : 8 ∣ w) : Function.Injective (bytes (w := w)) := by
  intro x y h
  have hbytes : ∀ i < w / 8,
      UInt8.ofNat (x.toNat >>> (8 * i)) = UInt8.ofNat (y.toNat >>> (8 * i)) := fun i hi =>
    List.map_inj_left.mp h i (List.mem_reverse.mpr (List.mem_range.mpr hi))
  refine BitVec.eq_of_getLsbD_eq fun i hi => ?_
  have hbyte := hbytes (i / 8) (Nat.div_lt_div_of_lt_of_dvd hw hi)
  rw [BitVec.getLsbD, BitVec.getLsbD, ← testBit_of_byte x.toNat, hbyte, testBit_of_byte]

end Keccak

/-- A narrow word padded on the left is a word of 32 bytes. -/
theorem padded_eq {w n : ℕ} (hw : w = 8 * n) (hn : n ≤ 32) (x : BitVec w) :
    padded x = Keccak.bytes (x.setWidth 256) := by
  subst hw
  obtain ⟨m, hm⟩ := Nat.exists_eq_add_of_le hn
  have hvalue : (x.setWidth 256).toNat = x.toNat := by
    rw [BitVec.toNat_setWidth, Nat.mod_eq_of_lt (x.isLt.trans_le _)]
    exact Nat.pow_le_pow_right (by decide) (by omega)
  have hwidth : (256 - 8 * n) / 8 = m := by omega
  have hrange : List.range (256 / 8) = List.range n ++ (List.range m).map (n + ·) := by
    rw [show 256 / 8 = n + m from hm, List.range_add]
  have hzeros : List.replicate m (0 : UInt8) = ((List.range m).map (n + ·)).reverse.map fun i =>
      UInt8.ofNat (x.toNat >>> (8 * i)) := by
    refine (List.eq_replicate_iff.mpr ⟨by simp, fun b hb => ?_⟩).symm
    obtain ⟨i, hi, rfl⟩ := List.mem_map.mp hb
    obtain ⟨j, -, rfl⟩ := List.mem_map.mp (List.mem_reverse.mp hi)
    have hbig : x.toNat < 2 ^ (8 * (n + j)) :=
      x.isLt.trans_le (Nat.pow_le_pow_right (by decide) (by omega))
    rw [Nat.shiftRight_eq_zero _ _ hbig]
    rfl
  unfold padded Keccak.bytes
  rw [hvalue, hwidth, hrange, List.reverse_append, List.map_append, hzeros,
    Nat.mul_div_cancel_left n (by decide)]

/-! ## Keys and addresses -/

section Keys

variable {a b a' b' : Address} {fee fee' : ℕ}

theorem setWidth_address_inj (h : a.setWidth 256 = b.setWidth 256) : a = b := by
  have hnat := congrArg BitVec.toNat h
  rw [BitVec.toNat_setWidth, BitVec.toNat_setWidth, Nat.mod_eq_of_lt (a.isLt.trans (by decide)),
    Nat.mod_eq_of_lt (b.isLt.trans (by decide))] at hnat
  exact BitVec.eq_of_toNat_eq hnat

/-- **A key gives back what it was made of.** -/
theorem poolKey_inj (hfee : fee < 2 ^ 256) (hfee' : fee' < 2 ^ 256)
    (h : poolKey a b fee = poolKey a' b' fee') : a = a' ∧ b = b' ∧ fee = fee' := by
  have hlength : ∀ x y : BitVec 256, (Keccak.bytes x).length = (Keccak.bytes y).length :=
    fun x y => (Keccak.length_bytes x).trans (Keccak.length_bytes y).symm
  have hword := Keccak.bytes_injective (w := 256) (by decide)
  unfold poolKey at h
  rw [List.append_assoc, List.append_assoc] at h
  obtain ⟨ha, h⟩ := List.append_inj h (hlength _ _)
  obtain ⟨hb, h⟩ := List.append_inj h (hlength _ _)
  have hnat := congrArg BitVec.toNat (hword h)
  rw [BitVec.toNat_ofNat, BitVec.toNat_ofNat, Nat.mod_eq_of_lt hfee, Nat.mod_eq_of_lt hfee'] at hnat
  exact ⟨setWidth_address_inj (hword ha), setWidth_address_inj (hword hb), hnat⟩

end Keys

namespace Pool

variable {p q : Pool} {pools : List Pool}

/-- What the salt of the pool's deployment is the hash of. -/
def key (pool : Pool) : List UInt8 := poolKey pool.token0.address pool.token1.address pool.fee

/-- The salt of the pool's deployment. -/
def salt (pool : Pool) : BitVec 256 := Keccak.hash pool.key

/-- Where the default factory deploys with a salt. -/
def deployment (salt : BitVec 256) : Address := create2 defaultFactory salt defaultInitCodeHash

/-- Two pools have the same tokens and the same fee. -/
def Same (p q : Pool) : Prop :=
  (p.token0 == q.token0) = true ∧ (p.token1 == q.token1) = true ∧ p.fee = q.fee

instance (p q : Pool) : Decidable (p.Same q) := inferInstanceAs (Decidable (_ ∧ _))

theorem address_eq (pool : Pool) : pool.address defaultInitCodeHash = deployment pool.salt := rfl

/-- **A pool is deployed at its address.** -/
theorem deployedAddress_eq (pool : Pool) :
    deployedAddress defaultFactory pool.token0 pool.token1 pool.fee defaultInitCodeHash =
      .ok (pool.address defaultInitCodeHash) := by
  obtain ⟨hchain, haddress⟩ := pool.ordered
  have hne : pool.token0.address ≠ pool.token1.address :=
    fun e => BitVec.lt_irrefl _ (e ▸ haddress)
  have hsorted : pool.token0.sortsBefore pool.token1 = .ok true := by
    unfold Token.sortsBefore
    rw [if_neg (not_not.mpr hchain), if_neg hne, decide_eq_true haddress]
  have hfee : (BitVec.ofNat 32 pool.fee).setWidth 256 = BitVec.ofNat 256 pool.fee := by
    have hlt : pool.fee < 2 ^ 32 := pool.fee_lt.trans (by decide)
    refine BitVec.eq_of_toNat_eq ?_
    rw [BitVec.toNat_setWidth, BitVec.toNat_ofNat, BitVec.toNat_ofNat, Nat.mod_eq_of_lt hlt]
  unfold deployedAddress
  rw [hsorted, ok_bind, if_pos rfl]
  dsimp only
  rw [padded_eq (n := 20) rfl (by decide), padded_eq (n := 20) rfl (by decide),
    padded_eq (n := 4) rfl (by decide), hfee]
  rfl

/-- The keys of pools on one chain are the same exactly if the pools are. -/
theorem key_eq_iff (hchain : p.chain = q.chain) : p.key = q.key ↔ p.Same q := by
  have hfee : ∀ pool : Pool, pool.fee < 2 ^ 256 := fun pool => pool.fee_lt.trans (by decide)
  have hchain1 : p.token1.chain = q.token1.chain :=
    p.ordered.1.symm.trans (hchain.trans q.ordered.1)
  unfold Same
  rw [Token.beq_iff, Token.beq_iff]
  constructor
  · intro h
    obtain ⟨h0, h1, hf⟩ := poolKey_inj (hfee p) (hfee q) h
    exact ⟨⟨hchain, h0⟩, ⟨hchain1, h1⟩, hf⟩
  · rintro ⟨⟨-, h0⟩, ⟨-, h1⟩, hf⟩
    unfold key
    rw [h0, h1, hf]

/-- **Distinct addresses are distinct pools**, on one chain and as long as no hash collides. -/
theorem nodup_addresses_iff (hchain : ∀ p ∈ pools, ∀ q ∈ pools, p.chain = q.chain)
    (hsalt : Set.InjOn Keccak.hash (key '' {pool | pool ∈ pools}))
    (hdeploy : Set.InjOn deployment (salt '' {pool | pool ∈ pools})) :
    (pools.map fun pool => pool.address defaultInitCodeHash).Nodup ↔
      pools.Pairwise fun p q => ¬p.Same q := by
  unfold List.Nodup
  rw [List.pairwise_map]
  refine List.Pairwise.iff_of_mem fun {p q} hp hq => not_congr ?_
  rw [← key_eq_iff (hchain p hp q hq), address_eq, address_eq]
  constructor
  · intro h
    exact hsalt ⟨p, hp, rfl⟩ ⟨q, hq, rfl⟩ (hdeploy ⟨p, hp, rfl⟩ ⟨q, hq, rfl⟩ h)
  · intro h
    rw [salt, salt, h]

/-- Where the addresses of pools are distinct, no hash collides on the way to them. -/
theorem injOn_of_nodup_addresses
    (h : (pools.map fun pool => pool.address defaultInitCodeHash).Nodup) :
    Set.InjOn Keccak.hash (key '' {pool | pool ∈ pools}) ∧
      Set.InjOn deployment (salt '' {pool | pool ∈ pools}) := by
  have hcomp : Set.InjOn (deployment ∘ salt) {pool | pool ∈ pools} :=
    fun p hp q hq heq => List.inj_on_of_nodup_map h hp hq heq
  have hsalt : Set.InjOn (Keccak.hash ∘ key) {pool | pool ∈ pools} := Set.InjOn.of_comp hcomp
  exact ⟨hsalt.image_of_comp, hcomp.image_of_comp⟩

end Pool

/-! ## Repeats -/

theorem dropRepeats_sublist (as : List Address) : (dropRepeats as).Sublist as := by
  induction as using dropRepeats.induct with
  | case1 => exact .slnil
  | case2 a => exact .refl _
  | case3 a rest ih =>
    rw [dropRepeats, if_pos rfl]
    exact ih.cons a
  | case4 a b rest hne ih =>
    rw [dropRepeats, if_neg hne]
    exact ih.cons_cons a

/-- Among sorted addresses, those that occur twice stand side by side. -/
theorem dropRepeats_eq_self_iff {as : List Address} (h : as.Pairwise (· ≤ ·)) :
    dropRepeats as = as ↔ as.Nodup := by
  induction as using dropRepeats.induct with
  | case1 => simp [dropRepeats]
  | case2 a => simp [dropRepeats]
  | case3 a rest ih =>
    rw [dropRepeats, if_pos rfl]
    have hlength := (dropRepeats_sublist (a :: rest)).length_le
    constructor
    · intro heq
      have := congrArg List.length heq
      rw [List.length_cons] at this
      omega
    · intro hnodup
      exact absurd List.mem_cons_self (List.nodup_cons.mp hnodup).1
  | case4 a b rest hne ih =>
    obtain ⟨hle, hrest⟩ := List.pairwise_cons.mp h
    rw [dropRepeats, if_neg hne, List.cons_inj_right, ih hrest, List.nodup_cons (a := a)]
    refine ⟨fun hnodup => ⟨fun hmem => ?_, hnodup⟩, And.right⟩
    -- what stands behind `b` is not below it, so `a` would not be either
    have hba : b ≤ a := by
      rcases List.mem_cons.mp hmem with rfl | hmem
      · exact BitVec.le_refl _
      · exact (List.pairwise_cons.mp hrest).1 a hmem
    exact hne (BitVec.le_antisymm (hle b List.mem_cons_self) hba)

/-- **Sorting and comparing neighbours finds every repeat.** -/
theorem allDistinct_eq (as : List Address) : allDistinct as = decide as.Nodup := by
  have hperm := as.mergeSort_perm fun a b => decide (a ≤ b)
  have hsorted : (as.mergeSort fun a b => decide (a ≤ b)).Pairwise (· ≤ ·) := by
    refine (List.pairwise_mergeSort (fun a b c hab hbc => ?_) (fun a b => ?_) as).imp
      of_decide_eq_true
    · exact decide_eq_true (BitVec.le_trans (of_decide_eq_true hab) (of_decide_eq_true hbc))
    · rcases BitVec.le_total a b with h | h <;> simp [h]
  unfold allDistinct
  rw [Bool.eq_iff_iff, decide_eq_true_iff, beq_iff_eq, ← hperm.length_eq, ← hperm.nodup_iff,
    ← dropRepeats_eq_self_iff hsorted]
  exact ⟨(dropRepeats_sublist _).eq_of_length, congrArg List.length⟩

end Clamm
