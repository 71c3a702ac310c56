import Mathlib.Logic.Basic
import Mathlib.Data.Nat.ModEq

/-!
# Stamped pointers

A `StampedPtr` is a raw pointer with a stamp; an `AtomicStampedPtr` keeps both in one 64-bit word, in
which the stamp has 16 bits. A store therefore keeps the stamp modulo `2^16`, and a compare-exchange
compares the raw pointer and the stamp modulo `2^16`. Null is `none`.

`updates` is a history, not a part of the word: the number of writes to the cell so far. A thread that
has loaded a cell remembers how many writes it had seen, which is how the assumption that a cell is
not updated too often between a load and the check that follows it is stated.
-/

namespace CppConcur.LockFree

/-- The stamps an `AtomicStampedPtr` distinguishes: `kMaxStamp + 1`. -/
def stamps : Nat := 2 ^ 16

/-- A raw pointer and a stamp. -/
structure StampedPtr (ν : Type*) where
  rawPtr : Option ν
  stamp : Nat
deriving DecidableEq

/-- What `Unpack` returns of the word `Pack` has made of a stamped pointer. -/
def StampedPtr.pack {ν : Type*} (p : StampedPtr ν) : StampedPtr ν := ⟨p.rawPtr, p.stamp % stamps⟩

theorem StampedPtr.pack_of_lt {ν : Type*} {p : StampedPtr ν} (h : p.stamp < stamps) : p.pack = p := by
  rw [pack, Nat.mod_eq_of_lt h]

/-- One packed word, and the number of writes to it so far. -/
structure AtomicStampedPtr (ν : Type*) where
  value : StampedPtr ν
  updates : Nat

/-- A local variable that holds what a load of a cell returned, and when the load took place. -/
structure Loaded (ν : Type*) where
  value : StampedPtr ν
  time : Nat

namespace AtomicStampedPtr

variable {ν : Type*} (cell : AtomicStampedPtr ν)

def load : Loaded ν := ⟨cell.value, cell.updates⟩

def store (p : StampedPtr ν) : AtomicStampedPtr ν := ⟨p.pack, cell.updates + 1⟩

/-- Fewer than `2^16` writes to the cell since a load of it. -/
def Fresh (seen : Loaded ν) : Prop := cell.updates - seen.time < stamps

/-- Whether a compare-exchange with the loaded value as expected value can succeed. -/
def Matches (seen : Loaded ν) : Prop := cell.value = seen.value.pack

instance [DecidableEq ν] (seen : Loaded ν) : Decidable (cell.Matches seen) :=
  inferInstanceAs (Decidable (cell.value = seen.value.pack))

end AtomicStampedPtr

end CppConcur.LockFree
