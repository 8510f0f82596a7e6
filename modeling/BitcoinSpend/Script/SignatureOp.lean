import BitcoinSpend.Ecdsa.Verification
import BitcoinSpend.Script.StackOp
import BitcoinSpend.Secp256k1.Sec

namespace BitcoinSpend

-- The signature in an element. Its last byte is the sighash type and is not
-- looked at.
def elementSignature (element : Bytes) : Except Error Signature :=
  match element with
  | [] => .error (.signature .missingMarker)
  | _ => Signature.ofDer element.dropLast

-- Cutting the last byte off leaves nothing of an element that has none, which is
-- no signature either.
theorem elementSignature_eq_ok_iff {element : Bytes} {signature : Signature} :
    elementSignature element = .ok signature ↔ Signature.ofDer element.dropLast = .ok signature := by
  cases element with
  | nil => simp [elementSignature, Signature.ofDer]
  | cons byte rest => rfl

-- Whether every signature matches a key, both taken in order and every key
-- used at most once.
def matchesInOrder {α β : Type} (verifies : α → β → Bool) : List α → List β → Bool
  | _, [] => true
  | [], _ :: _ => false
  | key :: keys, signature :: signatures =>
      if verifies key signature then matchesInOrder verifies keys signatures
      else matchesInOrder verifies keys (signature :: signatures)

namespace SignatureOp

def singleValid (z : Int) (key signature : Bytes) : Bool :=
  match Secp256k1.ofSec key, elementSignature signature with
  | .ok point, .ok signature => signature.verifies point z
  | _, _ => false

theorem singleValid_iff {z : Int} {key signature : Bytes} :
    singleValid z key signature = true ↔
      ∃ point sigma, Secp256k1.ofSec key = .ok point ∧
        Signature.ofDer signature.dropLast = .ok sigma ∧ sigma.verifies point z = true := by
  simp only [← elementSignature_eq_ok_iff]
  unfold singleValid
  constructor
  · intro h
    split at h
    next point sigma hk hs => exact ⟨point, sigma, hk, hs, h⟩
    next => cases h
  · rintro ⟨point, sigma, hk, hs, hv⟩
    simp only [hk, hs, hv]

-- One malformed key or signature makes the whole check fail.
def multipleValid (z : Int) (keys signatures : List Bytes) : Bool :=
  match keys.mapM Secp256k1.ofSec, signatures.mapM elementSignature with
  | .ok points, .ok signatures =>
      matchesInOrder (fun point (signature : Signature) => signature.verifies point z)
        points signatures
  | _, _ => false

-- Takes a count and as many elements below it, top first. At least one more
-- element has to remain.
def popCounted : Stack → Option (List Bytes × Stack)
  | [] => none
  | element :: below => do
      let count ← ScriptNumber.decodeCount element
      if count < below.length then return (below.take count, below.drop count) else none

def applySingle (z : Int) : Stack → Option Stack
  | key :: signature :: below => some (ScriptNumber.ofBool (singleValid z key signature) :: below)
  | _ => none

-- Beneath the signatures one more element is consumed.
def applyMultiple (z : Int) (stack : Stack) : Option Stack := do
  let (keys, below) ← popCounted stack
  let (signatures, below) ← popCounted below
  return ScriptNumber.ofBool (multipleValid z keys signatures) :: below.drop 1

def apply (z : Int) : SignatureOp → Stack → Option Stack
  | checkSig, s => applySingle z s
  | checkSigVerify, s => (applySingle z s).bind verifyTop
  | checkMultisig, s => applyMultiple z s
  | checkMultisigVerify, s => (applyMultiple z s).bind verifyTop

end SignatureOp

end BitcoinSpend
