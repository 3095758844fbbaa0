import FhevmEngine.GpuMemory.OpSize

/-!
# Sizes by category

The binary arms of `get_op_size_on_gpu` are a hand-written table of operation × variant ×
variant.  Read by category (Boolean, unsigned integer, byte string) the table is small: every
binary operation accepts two operands of one variant, or a variant and a `Scalar`, for the
categories `SupportedFheOperations.legal` lists, and costs them with one generic rule,
`estimateBinary`.  The code refines that design exactly (`getOpSizeOnGpu_eq_estimateBinary`),
so what is legal never depends on the width inside a category.

## Main definitions

* `Category`, `CtKind.category` — the categories of the encrypted variants.
* `Legal`, `SupportedFheOperations.legal` — the categories a binary operation accepts.
* `estimateBinary` — the generic cost of a binary operation.

## Main results

* `getOpSizeOnGpu_eq_estimateBinary` — **the code is the generic estimator** on every binary
  operation.
-/

namespace FhevmEngine
namespace GpuMemory

/-! ### The design -/

/-- The categories of the encrypted variants. -/
inductive Category where
  | boolean
  | uint
  | bytes
  deriving DecidableEq, Repr

/-- The category of a variant. -/
def CtKind.category : CtKind → Category
  | .fheBool => .boolean
  | .fheUint4 | .fheUint8 | .fheUint16 | .fheUint32 | .fheUint64 | .fheUint128 | .fheUint160
  | .fheUint256 => .uint
  | .fheBytes64 | .fheBytes128 | .fheBytes256 => .bytes

/-- The shapes a binary operation accepts: two operands of one variant of a category of `pair`,
or a variant of a category of `scalar` and a `Scalar`; `boolAsBool` says whether an `FheBool`
meets the clear value as itself, not cast into `FheUint2`. -/
structure Legal where
  pair : List Category
  scalar : List Category
  boolAsBool : Bool

/-- The binary operations and what they accept. -/
def SupportedFheOperations.legal : SupportedFheOperations → Option Legal
  | .fheAdd | .fheSub | .fheMul | .fheDiv | .fheRem => some ⟨[.uint], [.uint], false⟩
  | .fheBitAnd => some ⟨[.boolean, .uint, .bytes], [.boolean, .uint, .bytes], true⟩
  | .fheBitOr | .fheBitXor | .fheEq | .fheNe =>
    some ⟨[.boolean, .uint, .bytes], [.boolean, .uint, .bytes], false⟩
  | .fheShl | .fheShr | .fheRotl | .fheRotr => some ⟨[.uint, .bytes], [.uint, .bytes], false⟩
  | .fheMin | .fheMax => some ⟨[.uint, .bytes], [.uint], false⟩
  | .fheGe | .fheGt | .fheLe | .fheLt => some ⟨[.uint, .bytes], [.boolean, .uint], false⟩
  | _ => none

variable (x : Externals)

/-- The generic cost of a ciphertext of variant `k` against a clear operand of bytes `b`: the
method on `k`'s own type with `b` at `k`'s width; an `FheBool` is cast into `FheUint2` against
a 4-bit value, or taken as itself against a `bool` when `asBool`. -/
def scalarCost (op : SupportedFheOperations) (asBool : Bool) (k : CtKind) (b : List UInt8) :
    UInt64 :=
  match k with
  | .fheBool =>
    if asBool then x.scalarOpSize op (.ct .fheBool) (.bool (decide (0 < x.toBeBit 4 b)))
    else x.scalarOpSize op .fheUint2 (.uint 4 (x.toBeBit 4 b))
  | k => x.scalarOpSize op (.ct k) (.uint k.bits (x.toBeBit k.bits b))

/-- The generic estimator of a binary operation with legal shapes `l`. -/
def estimateBinary (op : SupportedFheOperations) (l : Legal) :
    List SupportedFheCiphertexts → Except Panic UInt64
  | [.ciphertext a, .ciphertext b] =>
    if a = b ∧ a.category ∈ l.pair then .ok (x.opSize op (.ct a)) else .error .unsupported
  | [.ciphertext a, .scalar b] =>
    if a.category ∈ l.scalar then .ok (scalarCost x op l.boolAsBool a b) else .error .unsupported
  | [.scalar _, _] => .error .unsupported
  | operands => .error (.assertEq operands.length 2)

/-! ### The code refines the design -/

/-- A binary operation whose arms are whole categories is the generic estimator. -/
theorem binary_eq_estimateBinary {op : SupportedFheOperations} {arms : BinaryArms} {l : Legal}
    (hpair : ∀ k, k ∈ arms.pair ↔ k.category ∈ l.pair)
    (hscalar : ∀ k, k ≠ .fheBool → (k ∈ arms.scalar ↔ k.category ∈ l.scalar))
    (hbool : arms.boolScalar =
      if .boolean ∈ l.scalar then (if l.boolAsBool then .asBool else .castUint2) else .none) :
    binary x op arms = estimateBinary x op l := by
  funext os
  match os with
  | [.ciphertext a, .ciphertext b] => simp [binary, binaryArm, estimateBinary, hpair]
  | [.ciphertext a, .scalar b] =>
    cases a
    case fheBool =>
      simp only [binary, binaryArm, estimateBinary, scalarCost, CtKind.category, hbool]
      by_cases hb : Category.boolean ∈ l.scalar <;> cases l.boolAsBool <;> simp [hb]
    all_goals simp [binary, binaryArm, estimateBinary, scalarCost, CtKind.category, hscalar]
  | [.scalar _, _] | [] => rfl
  | [a] => cases a <;> rfl
  | a :: b :: _ :: _ => cases a <;> cases b <;> rfl

/-- On every binary operation the match of `get_op_size_on_gpu` is the generic estimator. -/
theorem opSizeOnGpu_eq_estimateBinary {op : SupportedFheOperations} {l : Legal}
    (h : op.legal = some l) : opSizeOnGpu x op = estimateBinary x op l := by
  cases op <;> cases h <;> exact binary_eq_estimateBinary x (by decide) (by decide) (by decide)

/-- A concrete tfhe to evaluate the theorems at: every code converts to `op`, a clear value is
the big-endian bytes read modulo its width, a trivial encryption is an `FheUint8`, an oblivious
random value of `bits` bits takes `bits` bytes and every other size is one byte. -/
def Externals.constant (op : SupportedFheOperations) : Externals where
  operationOfInt _ := some op
  toBeBit bits b := b.foldl (fun acc d => acc * 256 + d.toNat) 0 % 2 ^ bits
  trivialEncryptBeBytes _ _ := .ciphertext .fheUint8
  sizeOnGpu _ := 1
  opSize _ _ := 1
  scalarOpSize _ _ _ := 1
  unaryOpSize _ _ := 1
  ifThenElseSize _ := 1
  randSize bits := UInt64.ofNat bits
  randBoundedSize bits := UInt64.ofNat bits

/-- **The code is the generic estimator.**  For every tfhe and every code that converts to a
binary operation, `get_op_size_on_gpu` answers, on every list of operands, what the generic
estimator answers with the categories the operation accepts: its hand-written arms are whole
categories, each costed by one rule. -/
theorem getOpSizeOnGpu_eq_estimateBinary {code : ℤ} {op : SupportedFheOperations} {l : Legal}
    (hop : x.operationOfInt code = some op) (hl : op.legal = some l) :
    getOpSizeOnGpu x code = estimateBinary x op l := by
  funext os
  simp only [getOpSizeOnGpu, hop]
  rw [opSizeOnGpu_eq_estimateBinary x hl]

/-- `FheShl` is the generic estimator with the categories of the shifts. -/
theorem getOpSizeOnGpu_eq_estimateBinary_shl :
    getOpSizeOnGpu (Externals.constant .fheShl) 8 =
      estimateBinary (Externals.constant .fheShl) .fheShl ⟨[.uint, .bytes], [.uint, .bytes], false⟩ :=
  getOpSizeOnGpu_eq_estimateBinary _ rfl rfl

end GpuMemory
end FhevmEngine
