import CppConcur.LockFree.StampedPtr
import CppConcur.Logic.Register
import Mathlib.Data.BitVec
import Mathlib.Logic.Equiv.Defs

/-!
# Packed stamped pointers

`Packer` keeps a pointer and a stamp in one word of 64 bits: the stamp in the bits from 48 on, where all bits of a
pointer in canonical form are equal to bit 47. The words are the pairs of a canonical pointer and a stamp of 16 bits,
and `AtomicStampedPtr`, which packs what it is given and unpacks what it has loaded, is a register of such pairs.
-/

namespace CppConcur.LockFree.Packer

open Logic

/-- `uintptr_t` and `uint64_t`. -/
abbrev Word := BitVec 64

/-- `StampedPtr`, with the address of the raw pointer. -/
@[ext]
structure StampedPtr where
  rawPtr : Word
  stamp : Word
deriving DecidableEq

def kFreeBits : Nat := 16

def kFreeBitsShift : Nat := 64 - kFreeBits

/-- The mask is computed as an `int`, converted and then shifted. -/
def kFreeBitsMask : Word := (((1 : BitVec 32) <<< kFreeBits) - 1).signExtend 64 <<< kFreeBitsShift

/-- `GetBit`, an `int`. -/
def getBit (mask : Word) (index : Nat) : BitVec 32 := ((mask >>> index) &&& 1).setWidth 32

def setFreeBits (mask : Word) : Word := mask ||| kFreeBitsMask

def clearFreeBits (mask : Word) : Word := mask &&& ~~~kFreeBitsMask

def toCanonicalForm (ptr : Word) : Word := if getBit ptr 47 ≠ 0 then setFreeBits ptr else clearFreeBits ptr

def getStamp (packedPtr : Word) : Word := packedPtr >>> kFreeBitsShift

def getRawPointer (packedPtr : Word) : Word := toCanonicalForm packedPtr

def pack (p : StampedPtr) : Word := clearFreeBits p.rawPtr ||| (p.stamp <<< kFreeBitsShift)

def unpack (packedPtr : Word) : StampedPtr := ⟨getRawPointer packedPtr, getStamp packedPtr⟩

/-- The bits 48 to 63 are equal to bit 47. -/
def IsCanonical (p : Word) : Prop := ∀ i, 48 ≤ i → i < 64 → p.getLsbD i = p.getLsbD 47

/-! ### The bits -/

theorem kFreeBitsMask_getLsbD (i : Nat) : kFreeBitsMask.getLsbD i = (decide (48 ≤ i) && decide (i < 64)) := by
  have hmask : kFreeBitsMask = BitVec.allOnes 64 <<< 48 := by decide
  rw [hmask, BitVec.getLsbD_shiftLeft, BitVec.getLsbD_allOnes]
  by_cases hi : i < 64
  · have hlt : i - 48 < 64 := by omega
    simp only [hi, hlt, decide_true, Bool.true_and, Bool.and_true, ← Nat.not_lt, decide_not]
  · simp [hi]

theorem getBit_ne_zero {w : Word} {i : Nat} : getBit w i ≠ 0 ↔ w.getLsbD i = true := by
  have hbit : (w >>> i) &&& 1 = if w.getLsbD i then 1 else 0 := by
    apply BitVec.eq_of_getLsbD_eq
    intro j hj
    rw [BitVec.getLsbD_and, BitVec.getLsbD_ushiftRight]
    cases j with
    | zero => cases w.getLsbD i <;> simp
    | succ j => cases w.getLsbD i <;> simp
  rw [getBit, hbit]
  cases w.getLsbD i <;> decide

theorem clearFreeBits_getLsbD (w : Word) (i : Nat) : (clearFreeBits w).getLsbD i = (decide (i < 48) && w.getLsbD i) := by
  rw [clearFreeBits, BitVec.getLsbD_and, BitVec.getLsbD_not, kFreeBitsMask_getLsbD]
  by_cases hi : i < 64
  · by_cases h48 : i < 48
    · simp [hi, h48, Nat.not_le.mpr h48]
    · simp [hi, h48, Nat.not_lt.mp h48]
  · rw [BitVec.getLsbD_of_ge w i (Nat.not_lt.mp hi)]
    simp

theorem setFreeBits_getLsbD (w : Word) (i : Nat) :
    (setFreeBits w).getLsbD i = (w.getLsbD i || (decide (48 ≤ i) && decide (i < 64))) := by
  rw [setFreeBits, BitVec.getLsbD_or, kFreeBitsMask_getLsbD]

/-- The canonical form extends the sign from bit 47. -/
theorem toCanonicalForm_getLsbD (w : Word) {i : Nat} (hi : i < 64) :
    (toCanonicalForm w).getLsbD i = if i < 48 then w.getLsbD i else w.getLsbD 47 := by
  rw [toCanonicalForm]
  split
  case isTrue hbit =>
    rw [setFreeBits_getLsbD, getBit_ne_zero.mp hbit]
    by_cases h48 : i < 48
    · simp [h48, Nat.not_le.mpr h48]
    · simp [h48, Nat.not_lt.mp h48, hi]
  case isFalse hbit =>
    have hclear : w.getLsbD 47 = false := by
      rw [getBit_ne_zero] at hbit
      simpa using hbit
    rw [clearFreeBits_getLsbD, hclear]
    by_cases h48 : i < 48 <;> simp [h48]

theorem isCanonical_toCanonicalForm (w : Word) : IsCanonical (toCanonicalForm w) := by
  intro i hle hlt
  rw [toCanonicalForm_getLsbD w hlt, toCanonicalForm_getLsbD w (by decide), if_neg (by omega), if_pos (by decide)]

theorem pack_getLsbD (p : StampedPtr) {i : Nat} (hi : i < 64) :
    (pack p).getLsbD i = if i < 48 then p.rawPtr.getLsbD i else p.stamp.getLsbD (i - 48) := by
  rw [pack, BitVec.getLsbD_or, clearFreeBits_getLsbD, kFreeBitsShift, kFreeBits, BitVec.getLsbD_shiftLeft]
  by_cases h48 : i < 48 <;> simp [h48, hi]

/-! ### Packing and unpacking -/

/-- A canonical pointer is what is left of it in the word. -/
theorem toCanonicalForm_pack {p : StampedPtr} (hp : IsCanonical p.rawPtr) : toCanonicalForm (pack p) = p.rawPtr := by
  apply BitVec.eq_of_getLsbD_eq
  intro i hi
  rw [toCanonicalForm_getLsbD _ hi]
  split
  case isTrue h48 => rw [pack_getLsbD p hi, if_pos h48]
  case isFalse h48 =>
    rw [pack_getLsbD p (by decide), if_pos (by decide), hp i (by omega) hi]

theorem mod_getLsbD (s : Word) (i : Nat) : (s % 2 ^ 16).getLsbD i = (decide (i < 16) && s.getLsbD i) := by
  have hmod : (s % 2 ^ 16).toNat = s.toNat % 2 ^ 16 := BitVec.toNat_umod
  rw [← BitVec.testBit_toNat, hmod, Nat.testBit_mod_two_pow, BitVec.testBit_toNat]

/-- The stamp is kept modulo `2^16`. -/
theorem getStamp_pack (p : StampedPtr) : getStamp (pack p) = p.stamp % 2 ^ 16 := by
  apply BitVec.eq_of_getLsbD_eq
  intro i hi
  rw [mod_getLsbD, getStamp, kFreeBitsShift, kFreeBits, BitVec.getLsbD_ushiftRight]
  by_cases h16 : i < 16
  · rw [pack_getLsbD p (by omega), if_neg (by omega), Nat.add_sub_cancel_left]
    simp [h16]
  · rw [BitVec.getLsbD_of_ge _ _ (by omega)]
    simp [h16]

theorem pack_unpack (w : Word) : pack (unpack w) = w := by
  apply BitVec.eq_of_getLsbD_eq
  intro i hi
  rw [pack_getLsbD _ hi, unpack, getRawPointer, getStamp, kFreeBitsShift, kFreeBits]
  split
  case isTrue h48 => rw [toCanonicalForm_getLsbD w hi, if_pos h48]
  case isFalse h48 =>
    rw [BitVec.getLsbD_ushiftRight]
    congr 1
    omega

theorem unpack_pack {p : StampedPtr} (hp : IsCanonical p.rawPtr) : unpack (pack p) = ⟨p.rawPtr, p.stamp % 2 ^ 16⟩ := by
  rw [unpack, getRawPointer, toCanonicalForm_pack hp, getStamp_pack]

/-- Packed words are equal when the pairs are. -/
theorem pack_eq_iff {p q : StampedPtr} (hp : IsCanonical p.rawPtr) (hq : IsCanonical q.rawPtr) :
    pack p = pack q ↔ p.rawPtr = q.rawPtr ∧ p.stamp % 2 ^ 16 = q.stamp % 2 ^ 16 := by
  constructor
  · intro heq
    have hunpack := congrArg unpack heq
    rw [unpack_pack hp, unpack_pack hq] at hunpack
    exact StampedPtr.mk.inj hunpack
  · rintro ⟨hptr, hstamp⟩
    rw [← pack_unpack (pack p), unpack_pack hp, hptr, hstamp, ← unpack_pack hq, pack_unpack]

/-! ### `AtomicStampedPtr` -/

namespace AtomicStampedPtr

def load (packed : Word) : StampedPtr := unpack packed

def store (p : StampedPtr) : Word := pack p

/-- The new word and the old stamped pointer. -/
def exchange (packed : Word) (target : StampedPtr) : Word × StampedPtr := (pack target, unpack packed)

/-- `CompareExchangeWeakImpl`: the new word, whether it succeeded, and what is then in `expected`. -/
def compareExchangeWeak (packed : Word) (expected desired : StampedPtr) (spurious : Bool) : Word × Bool × StampedPtr :=
  let expectedPacked := pack expected
  match Register.apply packed (.compareExchangeWeak expectedPacked (pack desired) spurious) with
  | (packed', .exchanged false found) => (packed', false, unpack found)
  | (packed', _) => (packed', true, expected)

/-- The operations; each is one atomic operation on the word. -/
def apply (packed : Word) : Register.Op StampedPtr → Word × Register.Reply StampedPtr
  | .load => (packed, .value (load packed))
  | .store p => (store p, .done)
  | .exchange target => ((exchange packed target).1, .value (exchange packed target).2)
  | .compareExchangeWeak expected desired spurious =>
      let (packed', succeeded, expected') := compareExchangeWeak packed expected desired spurious
      (packed', .exchanged succeeded expected')

end AtomicStampedPtr

/-! ### The pairs -/

/-- A canonical pointer and a stamp of 16 bits. -/
structure Pair where
  ptr : Word
  canonical : IsCanonical ptr
  stamp : BitVec 16
deriving DecidableEq

/-- The pair that is left of a stamped pointer in a word. -/
def StampedPtr.pair (p : StampedPtr) : Pair := ⟨toCanonicalForm p.rawPtr, isCanonical_toCanonicalForm _, p.stamp.setWidth 16⟩

theorem toCanonicalForm_of_isCanonical {p : Word} (hp : IsCanonical p) : toCanonicalForm p = p := by
  apply BitVec.eq_of_getLsbD_eq
  intro i hi
  rw [toCanonicalForm_getLsbD p hi]
  split
  case isTrue => rfl
  case isFalse h48 => rw [hp i (by omega) hi]

theorem pair_eq {p : StampedPtr} (hp : IsCanonical p.rawPtr) : p.pair = ⟨p.rawPtr, hp, p.stamp.setWidth 16⟩ := by
  simp only [StampedPtr.pair, toCanonicalForm_of_isCanonical hp]

/-- The pair is all that a word keeps of a stamped pointer. -/
theorem pack_pair (p : StampedPtr) : pack ⟨p.pair.ptr, p.pair.stamp.setWidth 64⟩ = pack p := by
  apply BitVec.eq_of_getLsbD_eq
  intro i hi
  rw [pack_getLsbD _ hi, pack_getLsbD _ hi]
  split
  case isTrue h48 => rw [StampedPtr.pair, toCanonicalForm_getLsbD _ hi, if_pos h48]
  case isFalse h48 =>
    have hlt : i - 48 < 16 := by omega
    have hlt' : i - 48 < 64 := by omega
    simp [StampedPtr.pair, hlt, hlt']

/-- And it can be read from the word. -/
theorem pair_unpack_pack {p : StampedPtr} (hp : IsCanonical p.rawPtr) : (unpack (pack p)).pair = p.pair := by
  have hmod : (⟨p.rawPtr, p.stamp % 2 ^ 16⟩ : StampedPtr).pair = ⟨p.rawPtr, hp, (p.stamp % 2 ^ 16).setWidth 16⟩ :=
    pair_eq (p := ⟨p.rawPtr, p.stamp % 2 ^ 16⟩) hp
  rw [unpack_pack hp, hmod, pair_eq hp]
  congr 1
  apply BitVec.eq_of_getLsbD_eq
  intro i hi
  rw [BitVec.getLsbD_setWidth, BitVec.getLsbD_setWidth, mod_getLsbD]
  simp [hi]

/-- The words of 64 bits are the pairs. -/
def wordEquiv : Word ≃ Pair where
  toFun w := (unpack w).pair
  invFun q := pack ⟨q.ptr, q.stamp.setWidth 64⟩
  left_inv w := (pack_pair (unpack w)).trans (pack_unpack w)
  right_inv q := by
    refine (pair_unpack_pack q.canonical).trans ((pair_eq q.canonical).trans ?_)
    simp

theorem wordEquiv_comp_pack : wordEquiv ∘ pack = StampedPtr.pair := by
  funext p
  rw [Function.comp_apply, ← pack_pair p]
  exact wordEquiv.apply_symm_apply p.pair

/-- An operation of `AtomicStampedPtr` is the operation on the word, for packed values. -/
theorem apply_packed (w : Word) (op : Register.Op StampedPtr) :
    Register.apply w (op.map pack) = Prod.map id (Register.Reply.map pack) (AtomicStampedPtr.apply w op) := by
  cases op with
  | load | exchange =>
    refine Prod.ext rfl ?_
    exact congrArg Register.Reply.value (pack_unpack w).symm
  | store p => rfl
  | compareExchangeWeak expected desired spurious =>
    simp only [Register.Op.map, Register.apply, AtomicStampedPtr.apply, AtomicStampedPtr.compareExchangeWeak]
    split
    case isTrue => rfl
    case isFalse =>
      refine Prod.ext rfl ?_
      exact congrArg (Register.Reply.exchanged false) (pack_unpack w).symm

/-- An operation of `AtomicStampedPtr` does to the word what the same operation does to the pair. -/
theorem apply_pair (w : Word) (op : Register.Op StampedPtr) :
    Register.apply (wordEquiv w) (op.map StampedPtr.pair) =
      Prod.map wordEquiv (Register.Reply.map StampedPtr.pair) (AtomicStampedPtr.apply w op) := by
  rw [← wordEquiv_comp_pack, ← Register.Op.map_map, Register.apply_map wordEquiv.injective, apply_packed]
  exact Prod.ext rfl (Register.Reply.map_map pack wordEquiv _)

/-- Packing loses nothing of a canonical pointer and keeps the stamp modulo `2^16`; every word is packed from what it
unpacks to; packed words are equal when the pairs are; and any sequence of operations on an `AtomicStampedPtr` has the
effect and the results of the same operations on a register of pairs. -/
theorem packed_pairs :
    (∀ p s : Word, IsCanonical p → unpack (pack ⟨p, s⟩) = ⟨p, s % 2 ^ 16⟩) ∧ (∀ w : Word, pack (unpack w) = w) ∧
      (∀ p q : StampedPtr, IsCanonical p.rawPtr → IsCanonical q.rawPtr →
        (pack p = pack q ↔ p.rawPtr = q.rawPtr ∧ p.stamp % 2 ^ 16 = q.stamp % 2 ^ 16)) ∧
      (∀ (p : StampedPtr) (hp : IsCanonical p.rawPtr), p.pair = ⟨p.rawPtr, hp, p.stamp.setWidth 16⟩) ∧
      ∀ (w : Word) (ops : List (Register.Op StampedPtr)),
        Register.run Register.apply (wordEquiv w) (ops.map (Register.Op.map StampedPtr.pair)) =
          Prod.map wordEquiv (List.map (Register.Reply.map StampedPtr.pair)) (Register.run AtomicStampedPtr.apply w ops) := by
  refine ⟨fun p s hp => unpack_pack hp, pack_unpack, fun p q hp hq => pack_eq_iff hp hq, fun p hp => pair_eq hp, ?_⟩
  intro w ops
  exact Register.run_map wordEquiv (Register.Op.map StampedPtr.pair) (Register.Reply.map StampedPtr.pair) apply_pair w ops

/-- A null pointer with the stamp that follows the largest one. -/
theorem packed_pairs_null : unpack (pack ⟨0, 65536⟩) = ⟨0, 0⟩ ∧ pack ⟨0, 65536⟩ = pack ⟨0, 0⟩ := by
  have hnull : IsCanonical 0 := by
    intro i _ _
    simp
  refine ⟨packed_pairs.1 0 65536 hnull, ?_⟩
  exact (packed_pairs.2.2.1 ⟨0, 65536⟩ ⟨0, 0⟩ hnull hnull).mpr ⟨rfl, rfl⟩

/-! ### Stamped pointers to nodes -/

section Encode

variable {ν : Type*} (addr : ν → Word)

/-- A stamped pointer of the model, for nodes at given addresses. -/
def encode (p : LockFree.StampedPtr ν) : StampedPtr := ⟨p.rawPtr.elim 0 addr, BitVec.ofNat 64 p.stamp⟩

variable {addr}

theorem isCanonical_encode (hcanonical : ∀ v, IsCanonical (addr v)) (p : LockFree.StampedPtr ν) :
    IsCanonical (encode addr p).rawPtr := by
  cases hp : p.rawPtr with
  | none =>
    simp only [encode, hp]
    intro i _ _
    simp
  | some v =>
    simp only [encode, hp]
    exact hcanonical v

/-- What the model says about a word: a stamped pointer comes back with the stamp modulo `2^16`. -/
theorem unpack_pack_encode (hcanonical : ∀ v, IsCanonical (addr v)) (p : LockFree.StampedPtr ν) :
    unpack (pack (encode addr p)) = encode addr p.pack := by
  rw [unpack_pack (isCanonical_encode hcanonical p)]
  refine StampedPtr.ext rfl ?_
  apply BitVec.eq_of_toNat_eq
  have hmod : (BitVec.ofNat 64 p.stamp % 2 ^ 16).toNat = p.stamp % 2 ^ 64 % 2 ^ 16 := BitVec.toNat_umod
  rw [show (encode addr p).stamp = BitVec.ofNat 64 p.stamp from rfl, hmod]
  simp only [encode, LockFree.StampedPtr.pack, stamps, BitVec.toNat_ofNat]
  omega

theorem encode_inj (hinj : Function.Injective addr) (hnull : ∀ v, addr v ≠ 0) {p q : LockFree.StampedPtr ν}
    (hp : p.stamp < 2 ^ 64) (hq : q.stamp < 2 ^ 64) (heq : encode addr p = encode addr q) : p = q := by
  obtain ⟨ptr, stamp⟩ := p
  obtain ⟨ptr', stamp'⟩ := q
  obtain ⟨hptr, hstamp⟩ := StampedPtr.mk.inj heq
  have hstamp : stamp = stamp' := by
    have := congrArg BitVec.toNat hstamp
    rwa [BitVec.toNat_ofNat, BitVec.toNat_ofNat, Nat.mod_eq_of_lt hp, Nat.mod_eq_of_lt hq] at this
  have hptr : ptr = ptr' := by
    cases ptr with
    | none =>
      cases ptr' with
      | none => rfl
      | some v => exact absurd hptr.symm (hnull v)
    | some v =>
      cases ptr' with
      | none => exact absurd hptr (hnull v)
      | some v' => rw [hinj hptr]
  rw [hptr, hstamp]

/-- And two words are equal when the model says so. -/
theorem pack_encode_inj (hcanonical : ∀ v, IsCanonical (addr v)) (hinj : Function.Injective addr) (hnull : ∀ v, addr v ≠ 0)
    (p q : LockFree.StampedPtr ν) : pack (encode addr p) = pack (encode addr q) ↔ p.pack = q.pack := by
  have hlt (r : LockFree.StampedPtr ν) : r.pack.stamp < 2 ^ 64 :=
    Nat.lt_trans (Nat.mod_lt _ (by decide)) (by decide : stamps < 2 ^ 64)
  constructor
  · intro heq
    have hunpack := congrArg unpack heq
    rw [unpack_pack_encode hcanonical, unpack_pack_encode hcanonical] at hunpack
    exact encode_inj hinj hnull (hlt p) (hlt q) hunpack
  · intro heq
    rw [← pack_unpack (pack (encode addr p)), unpack_pack_encode hcanonical, heq, ← unpack_pack_encode hcanonical, pack_unpack]

end Encode

end CppConcur.LockFree.Packer
