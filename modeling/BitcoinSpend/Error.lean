import BitcoinSpend.Bytes.Hex

namespace BitcoinSpend

-- Why a byte string is no script.
inductive ScriptError where
  | missingLength
  | missingOpcode
  | missingPushLength (opcode : UInt8)
  | oversizedData (length : Nat)
  | missingData (length : Nat)
  | lengthMismatch (declared consumed : Nat)
deriving DecidableEq

-- The two integers of a signature.
inductive Component where
  | r
  | s
deriving DecidableEq

-- Why a byte string or a pair of integers is no signature.
inductive SignatureError where
  | missingMarker
  | wrongMarker
  | missingLength
  | wrongLength
  | truncated (component : Component)
  | wrongIntegerMarker (component : Component)
  | trailingBytes
  | outOfRange (component : Component)
deriving DecidableEq

-- Why a byte string is no public key.
inductive PublicKeyError where
  | empty
  | uncompressedLength (length : Nat)
  | compressedLength (length : Nat)
  | unknownTag (tag : UInt8)
deriving DecidableEq

-- Why a text is no Base58 text of the expected kind.
inductive Base58Error where
  | invalidCharacter (code : UInt8)
  | noChecksum (text : String)
  | unknownWifVersion (version : UInt8)
  | emptyWif
  | wifLength (length : Nat)
  | addressLength (length : Nat)
deriving DecidableEq

-- The parts of a transaction that reading can stop at.
inductive TransactionPart where
  | version
  | inputCount
  | previousTxid
  | previousIndex
  | sequence
  | outputCount
  | amount
  | locktime
deriving DecidableEq

-- Why a byte string is no transaction.
inductive TransactionError where
  | truncated (part : TransactionPart)
  | noInputs
  | trailingBytes (count : Nat)
deriving DecidableEq

-- Why a well-read value is still not accepted.
inductive FormatError where
  | unknownNetwork (name : String)
  | secretOutOfRange
  | noAddress (script : String)
deriving DecidableEq

inductive Error where
  | fieldRange (value prime : Int)
  | fieldMismatch
  | curveMismatch
  | notOnCurve (x : Nat) (y : Option Nat)
  | script (cause : ScriptError)
  | unencodableData (length : Nat)
  | signature (cause : SignatureError)
  | publicKey (cause : PublicKeyError)
  | base58 (cause : Base58Error)
  | badChecksum
  | transaction (cause : TransactionError)
  | unresolved (txid : FixedBytes 32) (index : UInt32)
  | inputIndex (index : Nat)
  | sighashType (type : UInt32)
  | format (cause : FormatError)
  | hex (cause : HexError)
  | endOfInput
deriving DecidableEq

-- What every reader says when its input is too short.
def endOfInputText : String :=
  "failed to fill whole buffer"

def oversizedText (length : Nat) : String :=
  "data element of " ++ toString length ++ " bytes exceeds 520"

def HexError.message : HexError → String
  | .oddLength => "Odd number of digits"
  | .invalidCharacter code position =>
      "Invalid character " ++ Hex.quoted code ++ " at position " ++ toString position

def ScriptError.message : ScriptError → String
  | .missingLength => "failed to read length: " ++ endOfInputText
  | .missingOpcode => "failed to read opcode"
  | .missingPushLength opcode =>
      "failed to read " ++ (if opcode = 76 then "OP_PUSHDATA1" else "OP_PUSHDATA2") ++ " length"
  | .oversizedData length => oversizedText length
  | .missingData length => "failed to read " ++ toString length ++ " bytes of data"
  | .lengthMismatch declared consumed =>
      "length mismatch: declared " ++ toString declared ++ ", consumed " ++ toString consumed

def Component.upper : Component → String
  | .r => "R"
  | .s => "S"

def Component.lower : Component → String
  | .r => "r"
  | .s => "s"

def SignatureError.message : SignatureError → String
  | .missingMarker => "failed to read marker"
  | .wrongMarker => "invalid DER marker"
  | .missingLength => "failed to read length"
  | .wrongLength => "invalid DER length"
  | .truncated component => "failed to read " ++ component.upper
  | .wrongIntegerMarker component => "invalid " ++ component.upper ++ " marker"
  | .trailingBytes => "DER length mismatch"
  | .outOfRange component => component.lower ++ " out of range"

def PublicKeyError.message : PublicKeyError → String
  | .empty => "empty public key"
  | .uncompressedLength length =>
      "uncompressed key must be 65 bytes, got " ++ toString length
  | .compressedLength length => "compressed key must be 33 bytes, got " ++ toString length
  | .unknownTag tag => "unknown prefix 0x" ++ Hex.encode [tag]

def Base58Error.message : Base58Error → String
  | .invalidCharacter code => "invalid character " ++ Hex.quoted code
  | .noChecksum text => text ++ " is too short for a checksum"
  | .unknownWifVersion version => "unknown WIF version 0x" ++ Hex.encode [version]
  | .emptyWif => "empty WIF payload"
  | .wifLength length => "bad WIF payload length " ++ toString length
  | .addressLength length => "address payload must be 21 bytes, got " ++ toString length

def TransactionPart.name : TransactionPart → String
  | .version => "version"
  | .inputCount => "input count"
  | .previousTxid => "previous txid"
  | .previousIndex => "previous index"
  | .sequence => "sequence"
  | .outputCount => "output count"
  | .amount => "amount"
  | .locktime => "locktime"

def TransactionError.message : TransactionError → String
  | .truncated part => "failed to read " ++ part.name ++ ": " ++ endOfInputText
  | .noInputs => "segwit serialization is not supported"
  | .trailingBytes count => toString count ++ " trailing bytes"

def FormatError.message : FormatError → String
  | .unknownNetwork name => "Unknown network: " ++ name
  | .secretOutOfRange => "WIF secret outside [1, N)"
  | .noAddress script => "no address for script pubkey: " ++ script

def Error.message : Error → String
  | .fieldRange value prime =>
      toString value ++ " is not in field range 0 to " ++ toString prime
  | .fieldMismatch => "Cannot combine elements of different fields"
  | .curveMismatch => "Points are not on the same curve"
  | .notOnCurve x y =>
      let shown := match y with
        | some value => toString value
        | none => "?"
      "(" ++ toString x ++ ", " ++ shown ++ ") is not on the curve"
  | .script cause => "Script parse error: " ++ cause.message
  | .unencodableData length => "Script encode error: " ++ oversizedText length
  | .signature cause => "Signature parse error: " ++ cause.message
  | .publicKey cause => "SEC parse error: " ++ cause.message
  | .base58 cause => "Base58 error: " ++ cause.message
  | .badChecksum => "Bad checksum"
  | .transaction cause => "Transaction parse error: " ++ cause.message
  | .unresolved txid index =>
      "Unresolved input " ++ Hex.encode txid.bytes ++ ":" ++ toString index
  | .inputIndex index => "Input index " ++ toString index ++ " out of range"
  | .sighashType type => "Unsupported sighash type " ++ toString type
  | .format cause => "Invalid format: " ++ cause.message
  | .hex cause => "Hex error: " ++ cause.message
  | .endOfInput => endOfInputText

end BitcoinSpend
