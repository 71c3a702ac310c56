import Mathlib.Logic.Function.Basic

/-!
# Atomic registers

A register of any type with the operations of an atomic variable. A weak compare-exchange may fail without a reason,
and it reports the value it has found. A one-to-one translation of the values turns the runs of one register into
those of another: no operation can tell the difference.
-/

namespace CppConcur.Logic.Register

variable {α β : Type*}

inductive Op (α : Type*)
  | load
  | store (v : α)
  | exchange (v : α)
  | compareExchangeWeak (expected desired : α) (spurious : Bool)

/-- What an operation returns; a compare-exchange also leaves a value in `expected`. -/
inductive Reply (α : Type*)
  | value (v : α)
  | done
  | exchanged (succeeded : Bool) (expected : α)

def Op.map (f : α → β) : Op α → Op β
  | .load => .load
  | .store v => .store (f v)
  | .exchange v => .exchange (f v)
  | .compareExchangeWeak expected desired spurious => .compareExchangeWeak (f expected) (f desired) spurious

def Reply.map (f : α → β) : Reply α → Reply β
  | .value v => .value (f v)
  | .done => .done
  | .exchanged succeeded expected => .exchanged succeeded (f expected)

theorem Op.map_map {γ : Type*} (f : α → β) (g : β → γ) (op : Op α) : (op.map f).map g = op.map (g ∘ f) := by
  cases op <;> rfl

theorem Reply.map_map {γ : Type*} (f : α → β) (g : β → γ) (reply : Reply α) : (reply.map f).map g = reply.map (g ∘ f) := by
  cases reply <;> rfl

/-- One operation on the register with the value `x`. -/
def apply [DecidableEq α] (x : α) : Op α → α × Reply α
  | .load => (x, .value x)
  | .store v => (v, .done)
  | .exchange v => (v, .value x)
  | .compareExchangeWeak expected desired spurious =>
      if x = expected ∧ spurious = false then (desired, .exchanged true expected) else (x, .exchanged false x)

/-- A sequence of operations, in the order in which they take place. -/
def run {σ ω ρ : Type*} (step : σ → ω → σ × ρ) (x : σ) : List ω → σ × List ρ
  | [] => (x, [])
  | op :: ops => ((run step (step x op).1 ops).1, (step x op).2 :: (run step (step x op).1 ops).2)

theorem apply_map [DecidableEq α] [DecidableEq β] {f : α → β} (hf : Function.Injective f) (x : α) (op : Op α) :
    apply (f x) (op.map f) = Prod.map f (Reply.map f) (apply x op) := by
  cases op with
  | load | store | exchange => rfl
  | compareExchangeWeak expected desired spurious =>
    simp only [Op.map, apply, hf.eq_iff]
    split <;> rfl

/-- A translation of states, operations and replies that each operation keeps is kept by runs. -/
theorem run_map {σ ω ρ σ' ω' ρ' : Type*} {step : σ → ω → σ × ρ} {step' : σ' → ω' → σ' × ρ'} (state : σ → σ')
    (op : ω → ω') (reply : ρ → ρ') (hstep : ∀ x o, step' (state x) (op o) = Prod.map state reply (step x o)) (x : σ)
    (ops : List ω) : run step' (state x) (ops.map op) = Prod.map state (List.map reply) (run step x ops) := by
  induction ops generalizing x with
  | nil => rfl
  | cons o ops ih => simp [run, hstep, ih]

end CppConcur.Logic.Register
