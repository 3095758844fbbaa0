import Mathlib.Tactic.DeriveFintype

/-!
# The size of an operation on a GPU

`get_op_size_on_gpu(fhe_operation_int, input_operands)` is what a caller reserves with
`reserve_memory_on_gpu` before it runs an operation on a GPU.  It converts the operation code,
asserts the operand count, and matches on the variants of the operands: each arm of the match
asks tfhe for the size of one method on one type, and every shape it lists no arm for panics.

The sizes themselves belong to tfhe, and the conversions of clear bytes to `tfhe_ops.rs`; the
model takes them as the fields of one parameter, `Externals`, and keeps every decision of
`gpu_memory.rs`: which arm applies to which operands, with which type and clear value, when the
answer is `0`, and which panic ends the call.

A ciphertext's value never matters to a size, only its variant, so an operand is a variant of
`CtKind` or a `Scalar` with its bytes.  The binary operations differ only in their tables of
arms, so each is `binary` applied to its own `BinaryArms`, written as its arms in the source.

## Main definitions

* `CtKind`, `SupportedFheCiphertexts`, `SupportedFheOperations` — variants, operands, operations.
* `Externals` — what the file calls from tfhe, `tfhe_ops.rs` and the operation enum.
* `getSizeOnGpu`, `getSupportedCtSizeOnGpu` — the size of one operand, of one unit of a type.
* `binary`, `unary`, `ifThenElse`, `trivialEncryptOrCast`, `rand` — the arms of the match.
* `getOpSizeOnGpu` — the whole function.

## References

`coprocessor/fhevm-engine/fhevm-engine-common/src/gpu_memory.rs`, lines 34–64 and 86–1710.
-/

namespace FhevmEngine
namespace GpuMemory

/-! ### Operands and operations -/

/-- The encrypted variants of `SupportedFheCiphertexts`. -/
inductive CtKind where
  | fheBool
  | fheUint4
  | fheUint8
  | fheUint16
  | fheUint32
  | fheUint64
  | fheUint128
  | fheUint160
  | fheUint256
  | fheBytes64
  | fheBytes128
  | fheBytes256
  deriving DecidableEq, Fintype, Repr

/-- An operand: a ciphertext of an encrypted variant, or a clear `Scalar` of big-endian bytes. -/
inductive SupportedFheCiphertexts where
  | ciphertext (kind : CtKind)
  | scalar (bytes : List UInt8)
  deriving DecidableEq, Repr

/-- The operations `get_op_size_on_gpu` has an arm for, and `other` for every other variant of
`SupportedFheOperations`, all of which reach its final `_ => panic!()`. -/
inductive SupportedFheOperations where
  | fheAdd
  | fheSub
  | fheMul
  | fheDiv
  | fheRem
  | fheBitAnd
  | fheBitOr
  | fheBitXor
  | fheShl
  | fheShr
  | fheRotl
  | fheRotr
  | fheMin
  | fheMax
  | fheEq
  | fheNe
  | fheGe
  | fheGt
  | fheLe
  | fheLt
  | fheNot
  | fheNeg
  | fheIfThenElse
  | fheTrivialEncrypt
  | fheCast
  | fheRand
  | fheRandBounded
  | other
  deriving DecidableEq, Fintype, Repr

/-- The tfhe types whose sizes are asked for: the type inside a variant, or `FheUint2`, which
`FheBool` operands are cast into. -/
inductive FheType where
  | ct (kind : CtKind)
  | fheUint2
  deriving DecidableEq, Repr

/-- The clear operand handed to a scalar method: `to_be_u4_bit(b) > 0`, or the value
`to_be_u{bits}_bit(b)` of `bits` bits. -/
inductive Clear where
  | bool (b : Bool)
  | uint (bits value : ℕ)
  deriving DecidableEq, Repr

/-- How `get_op_size_on_gpu` panics. -/
inductive Panic where
  /-- `.expect("Invalid operation")` on the conversion of the operation code. -/
  | invalidOperation
  /-- `assert_eq!(input_operands.len(), right)` with `left` operands. -/
  | assertEq (left right : ℕ)
  /-- `input_operands[index]` with only `len` operands. -/
  | indexOutOfBounds (index len : ℕ)
  /-- `panic!()`: no arm for these operands. -/
  | unsupported
  deriving DecidableEq, Repr

/-- The bit width of the clear value an arm `(k(a), Scalar(b))` converts `b` to:
`to_be_u4_bit` up to `to_be_u2048_bit`; `FheBool` arms use `to_be_u4_bit`. -/
def CtKind.bits : CtKind → ℕ
  | .fheBool | .fheUint4 => 4
  | .fheUint8 => 8
  | .fheUint16 => 16
  | .fheUint32 => 32
  | .fheUint64 => 64
  | .fheUint128 => 128
  | .fheUint160 => 160
  | .fheUint256 => 256
  | .fheBytes64 => 512
  | .fheBytes128 => 1024
  | .fheBytes256 => 2048

/-- What `gpu_memory.rs` calls outside itself. -/
structure Externals where
  /-- `fhe_operation_int.try_into()`: the operation of a code, if it has one. -/
  operationOfInt : ℤ → Option SupportedFheOperations
  /-- `to_be_u{bits}_bit(b)`: the clear value of `bits` bits of the big-endian bytes `b`. -/
  toBeBit : ℕ → List UInt8 → ℕ
  /-- `trivial_encrypt_be_bytes(ct_type, bytes)`. -/
  trivialEncryptBeBytes : ℤ → List UInt8 → SupportedFheCiphertexts
  /-- `v.get_size_on_gpu()` for a ciphertext of a type. -/
  sizeOnGpu : FheType → UInt64
  /-- `a.get_<op>_size_on_gpu(b)` for two ciphertexts of a type. -/
  opSize : SupportedFheOperations → FheType → UInt64
  /-- `a.get_<op>_size_on_gpu(c)` for a ciphertext of a type and a clear value. -/
  scalarOpSize : SupportedFheOperations → FheType → Clear → UInt64
  /-- `a.get_bitnot_size_on_gpu()` and `a.get_neg_size_on_gpu()`. -/
  unaryOpSize : SupportedFheOperations → FheType → UInt64
  /-- `flag.get_if_then_else_size_on_gpu(a, b)` for branches of a type. -/
  ifThenElseSize : FheType → UInt64
  /-- `FheUint{bits}::get_generate_oblivious_pseudo_random_size_on_gpu()`. -/
  randSize : ℕ → UInt64
  /-- `FheUint{bits}::get_generate_oblivious_pseudo_random_bounded_size_on_gpu()`. -/
  randBoundedSize : ℕ → UInt64

variable (x : Externals)

/-! ### The size of an operand -/

/-- `SupportedFheCiphertexts::get_size_on_gpu`: an `FheBool` is cast into `FheUint2` first, and a
`Scalar` counts its bytes. -/
def getSizeOnGpu : SupportedFheCiphertexts → UInt64
  | .ciphertext .fheBool => x.sizeOnGpu .fheUint2
  | .ciphertext k => x.sizeOnGpu (.ct k)
  | .scalar v => UInt64.ofNat v.length

/-- `get_supported_ct_size_on_gpu(ct_type)`: the size of `1` trivially encrypted as `ct_type`. -/
def getSupportedCtSizeOnGpu (ctType : ℤ) : UInt64 :=
  getSizeOnGpu x (x.trivialEncryptBeBytes ctType [1])

/-- `v as i16` for the `u16` value `v`. -/
def asI16 (v : ℕ) : ℤ := Int.bmod v 65536

/-! ### Binary operations -/

/-- How the arm `(FheBool(a), Scalar(b))` of a binary operation passes its operands. -/
inductive BoolScalar where
  /-- There is no such arm. -/
  | none
  /-- `a.get_<op>_size_on_gpu(to_be_u4_bit(b) > 0)` on the `FheBool` itself. -/
  | asBool
  /-- `a` cast into `FheUint2`, then `a.get_<op>_size_on_gpu(to_be_u4_bit(b))`. -/
  | castUint2
  deriving DecidableEq, Repr

/-- The arms of a binary operation: the variants `k` with an arm `(k(a), k(b))`, the variants
other than `FheBool` with an arm `(k(a), Scalar(b))`, and the arm `(FheBool(a), Scalar(b))`. -/
structure BinaryArms where
  pair : List CtKind
  scalar : List CtKind
  boolScalar : BoolScalar

/-- `FheUint4` to `FheUint256`. -/
def uints : List CtKind :=
  [.fheUint4, .fheUint8, .fheUint16, .fheUint32, .fheUint64, .fheUint128, .fheUint160, .fheUint256]

/-- `FheBytes64` to `FheBytes256`. -/
def bytes : List CtKind := [.fheBytes64, .fheBytes128, .fheBytes256]

/-- The match on `(&input_operands[0], &input_operands[1])` of a binary operation. -/
def binaryArm (op : SupportedFheOperations) (arms : BinaryArms) :
    SupportedFheCiphertexts → SupportedFheCiphertexts → Except Panic UInt64
  | .ciphertext a, .ciphertext b =>
    if a = b ∧ a ∈ arms.pair then .ok (x.opSize op (.ct a)) else .error .unsupported
  | .ciphertext .fheBool, .scalar b =>
    match arms.boolScalar with
    | .none => .error .unsupported
    | .asBool => .ok (x.scalarOpSize op (.ct .fheBool) (.bool (decide (0 < x.toBeBit 4 b))))
    | .castUint2 => .ok (x.scalarOpSize op .fheUint2 (.uint 4 (x.toBeBit 4 b)))
  | .ciphertext a, .scalar b =>
    if a ∈ arms.scalar then .ok (x.scalarOpSize op (.ct a) (.uint a.bits (x.toBeBit a.bits b)))
    else .error .unsupported
  | .scalar _, _ => .error .unsupported

/-- A binary operation: `assert_eq!(input_operands.len(), 2)`, then its match. -/
def binary (op : SupportedFheOperations) (arms : BinaryArms) :
    List SupportedFheCiphertexts → Except Panic UInt64
  | [a, b] => binaryArm x op arms a b
  | operands => .error (.assertEq operands.length 2)

/-! ### The other operations -/

/-- `FheNot` and `FheNeg`: `assert_eq!(input_operands.len(), 1)`, then an arm for each variant
of `kinds`. -/
def unary (op : SupportedFheOperations) (kinds : List CtKind) :
    List SupportedFheCiphertexts → Except Panic UInt64
  | [.ciphertext a] => if a ∈ kinds then .ok (x.unaryOpSize op (.ct a)) else .error .unsupported
  | [.scalar _] => .error .unsupported
  | operands => .error (.assertEq operands.length 1)

/-- `FheIfThenElse`: `assert_eq!(input_operands.len(), 3)`; a condition that is not an `FheBool`
returns `0`; branches of one variant are costed, `FheBool` ones cast into `FheUint2`. -/
def ifThenElse : List SupportedFheCiphertexts → Except Panic UInt64
  | [.ciphertext .fheBool, a, b] =>
    match a, b with
    | .ciphertext .fheBool, .ciphertext .fheBool => .ok (x.ifThenElseSize .fheUint2)
    | .ciphertext a, .ciphertext b =>
      if a = b then .ok (x.ifThenElseSize (.ct a)) else .error .unsupported
    | _, _ => .error .unsupported
  | [_, _, _] => .ok 0
  | operands => .error (.assertEq operands.length 3)

/-- `&input_operands[index]`. -/
def operand (operands : List SupportedFheCiphertexts) (index : ℕ) :
    Except Panic SupportedFheCiphertexts :=
  match operands[index]? with
  | some o => .ok o
  | none => .error (.indexOutOfBounds index operands.length)

/-- `FheTrivialEncrypt` and `FheCast`: no assert; the second operand must be a `Scalar`, whose
`to_be_u16_bit` value as `i16` is the type trivially encrypted. -/
def trivialEncryptOrCast (operands : List SupportedFheCiphertexts) : Except Panic UInt64 := do
  let _ ← operand operands 0
  match ← operand operands 1 with
  | .scalar op => .ok (getSizeOnGpu x (x.trivialEncryptBeBytes (asI16 (x.toBeBit 16 op)) [1]))
  | .ciphertext _ => .error .unsupported

/-- The output type of `FheRand` and `FheRandBounded` by its tag: `FheUint2` to `FheUint2048`. -/
def randTypeBits : ℤ → Option ℕ
  | 0 => some 2
  | 1 => some 4
  | 2 => some 8
  | 3 => some 16
  | 4 => some 32
  | 5 => some 64
  | 6 => some 128
  | 7 => some 160
  | 8 => some 256
  | 9 => some 512
  | 10 => some 1024
  | 11 => some 2048
  | _ => none

/-- The `match to_type` of `FheRand` and `FheRandBounded`: the size of a random value of the type
tagged `toType`, and `panic!()` on any other tag. -/
def randOfTag (size : ℕ → UInt64) (toType : ℤ) : Except Panic UInt64 :=
  match randTypeBits toType with
  | some bits => .ok (size bits)
  | none => .error .unsupported

/-- `FheRand` (`index = 1`, `size = randSize`) and `FheRandBounded` (`index = 2`,
`size = randBoundedSize`): no assert; an operand at `index` that is not a `Scalar` returns `0`,
a `Scalar` there is the tag, its `to_be_u16_bit` value as `i16`. -/
def rand (size : ℕ → UInt64) (index : ℕ) (operands : List SupportedFheCiphertexts) :
    Except Panic UInt64 :=
  match operand operands index with
  | .ok (.scalar toType) => randOfTag size (asI16 (x.toBeBit 16 toType))
  | .ok (.ciphertext _) => .ok 0
  | .error e => .error e

/-! ### The whole function -/

/-- The match on the operation, each arm with its own table as the source lists it. -/
def opSizeOnGpu : SupportedFheOperations → List SupportedFheCiphertexts → Except Panic UInt64
  | .fheAdd => binary x .fheAdd ⟨uints, uints, .none⟩
  | .fheSub => binary x .fheSub ⟨uints, uints, .none⟩
  | .fheMul => binary x .fheMul ⟨uints, uints, .none⟩
  | .fheDiv => binary x .fheDiv ⟨uints, uints, .none⟩
  | .fheRem => binary x .fheRem ⟨uints, uints, .none⟩
  | .fheBitAnd => binary x .fheBitAnd ⟨.fheBool :: uints ++ bytes, uints ++ bytes, .asBool⟩
  | .fheBitOr => binary x .fheBitOr ⟨.fheBool :: uints ++ bytes, uints ++ bytes, .castUint2⟩
  | .fheBitXor => binary x .fheBitXor ⟨.fheBool :: uints ++ bytes, uints ++ bytes, .castUint2⟩
  | .fheShl => binary x .fheShl ⟨uints ++ bytes, uints ++ bytes, .none⟩
  | .fheShr => binary x .fheShr ⟨uints ++ bytes, uints ++ bytes, .none⟩
  | .fheRotl => binary x .fheRotl ⟨uints ++ bytes, uints ++ bytes, .none⟩
  | .fheRotr => binary x .fheRotr ⟨uints ++ bytes, uints ++ bytes, .none⟩
  | .fheMin => binary x .fheMin ⟨uints ++ bytes, uints, .none⟩
  | .fheMax => binary x .fheMax ⟨uints ++ bytes, uints, .none⟩
  | .fheEq => binary x .fheEq ⟨.fheBool :: uints ++ bytes, uints ++ bytes, .castUint2⟩
  | .fheNe => binary x .fheNe ⟨.fheBool :: uints ++ bytes, uints ++ bytes, .castUint2⟩
  | .fheGe => binary x .fheGe ⟨uints ++ bytes, uints, .castUint2⟩
  | .fheGt => binary x .fheGt ⟨uints ++ bytes, uints, .castUint2⟩
  | .fheLe => binary x .fheLe ⟨uints ++ bytes, uints, .castUint2⟩
  | .fheLt => binary x .fheLt ⟨uints ++ bytes, uints, .castUint2⟩
  | .fheNot => unary x .fheNot (.fheBool :: uints ++ bytes)
  | .fheNeg => unary x .fheNeg uints
  | .fheIfThenElse => ifThenElse x
  | .fheTrivialEncrypt | .fheCast => trivialEncryptOrCast x
  | .fheRand => rand x x.randSize 1
  | .fheRandBounded => rand x x.randBoundedSize 2
  | .other => fun _ => .error .unsupported

/-- `get_op_size_on_gpu(fhe_operation_int, input_operands)`. -/
def getOpSizeOnGpu (fheOperationInt : ℤ) (inputOperands : List SupportedFheCiphertexts) :
    Except Panic UInt64 :=
  match x.operationOfInt fheOperationInt with
  | some op => opSizeOnGpu x op inputOperands
  | none => .error .invalidOperation

end GpuMemory
end FhevmEngine
