import BitcoinSpend.Bytes

namespace BitcoinSpend

-- Arithmetic on the top element.
inductive UnaryOp where
  | add1
  | sub1
  | negate
  | abs
  | not
  | nonZero
deriving DecidableEq

-- Arithmetic on the two top elements, the top one being the right operand.
inductive BinaryOp where
  | add
  | sub
  | mul
  | boolAnd
  | boolOr
  | numEqual
  | numNotEqual
  | lessThan
  | greaterThan
  | lessThanOrEqual
  | greaterThanOrEqual
  | min
  | max
deriving DecidableEq

inductive DigestOp where
  | ripemd160
  | sha1
  | sha256
  | hash160
  | hash256
deriving DecidableEq

-- Operations that need nothing but the main stack.
inductive StackOp where
  | number (value : Int)
  | nop
  | verify
  | fail
  | drop2
  | dup2
  | dup3
  | over2
  | rot2
  | swap2
  | ifDup
  | depth
  | drop
  | dup
  | nip
  | copyOver
  | pick
  | roll
  | rot
  | swap
  | tuck
  | size
  | equal
  | equalVerify
  | unary (op : UnaryOp)
  | binary (op : BinaryOp)
  | numEqualVerify
  | within
  | digest (op : DigestOp)
deriving DecidableEq

-- Operations that move an element between the main and the alternative stack.
inductive TransferOp where
  | toAlt
  | fromAlt
deriving DecidableEq

-- Operations that check signatures over the hash of the spend.
inductive SignatureOp where
  | checkSig
  | checkSigVerify
  | checkMultisig
  | checkMultisigVerify
deriving DecidableEq

-- Operations that compare against the lock fields of the spend.
inductive LockOp where
  | checkLocktime
  | checkSequence
deriving DecidableEq

inductive Operation where
  | stack (op : StackOp)
  | branch (wanted : Bool)
  | transfer (op : TransferOp)
  | signature (op : SignatureOp)
  | lock (op : LockOp)
deriving DecidableEq

-- An opcode with a name. One without an operation cannot be executed.
structure Opcode where
  code : UInt8
  name : String
  operation : Option Operation

namespace Opcode

def ifTrue : UInt8 := 99
def ifFalse : UInt8 := 100
def otherwise : UInt8 := 103
def endIf : UInt8 := 104
def dup : UInt8 := 118
def equal : UInt8 := 135
def equalVerify : UInt8 := 136
def hash160 : UInt8 := 169
def checkSig : UInt8 := 172
def checkMultisig : UInt8 := 174

def ofStack (code : UInt8) (name : String) (op : StackOp) : Opcode :=
  ⟨code, name, some (.stack op)⟩

def ofSignature (code : UInt8) (name : String) (op : SignatureOp) : Opcode :=
  ⟨code, name, some (.signature op)⟩

def constants : List Opcode :=
  [ofStack 0 "OP_0" (.number 0),
   ⟨76, "OP_PUSHDATA1", none⟩,
   ⟨77, "OP_PUSHDATA2", none⟩,
   ⟨78, "OP_PUSHDATA4", none⟩,
   ofStack 79 "OP_1NEGATE" (.number (-1)),
   ofStack 81 "OP_1" (.number 1),
   ofStack 82 "OP_2" (.number 2),
   ofStack 83 "OP_3" (.number 3),
   ofStack 84 "OP_4" (.number 4),
   ofStack 85 "OP_5" (.number 5),
   ofStack 86 "OP_6" (.number 6),
   ofStack 87 "OP_7" (.number 7),
   ofStack 88 "OP_8" (.number 8),
   ofStack 89 "OP_9" (.number 9),
   ofStack 90 "OP_10" (.number 10),
   ofStack 91 "OP_11" (.number 11),
   ofStack 92 "OP_12" (.number 12),
   ofStack 93 "OP_13" (.number 13),
   ofStack 94 "OP_14" (.number 14),
   ofStack 95 "OP_15" (.number 15),
   ofStack 96 "OP_16" (.number 16)]

def flow : List Opcode :=
  [ofStack 97 "OP_NOP" .nop,
   ⟨99, "OP_IF", some (.branch true)⟩,
   ⟨100, "OP_NOTIF", some (.branch false)⟩,
   ⟨103, "OP_ELSE", none⟩,
   ⟨104, "OP_ENDIF", none⟩,
   ofStack 105 "OP_VERIFY" .verify,
   ofStack 106 "OP_RETURN" .fail]

def elements : List Opcode :=
  [⟨107, "OP_TOALTSTACK", some (.transfer .toAlt)⟩,
   ⟨108, "OP_FROMALTSTACK", some (.transfer .fromAlt)⟩,
   ofStack 109 "OP_2DROP" .drop2,
   ofStack 110 "OP_2DUP" .dup2,
   ofStack 111 "OP_3DUP" .dup3,
   ofStack 112 "OP_2OVER" .over2,
   ofStack 113 "OP_2ROT" .rot2,
   ofStack 114 "OP_2SWAP" .swap2,
   ofStack 115 "OP_IFDUP" .ifDup,
   ofStack 116 "OP_DEPTH" .depth,
   ofStack 117 "OP_DROP" .drop,
   ofStack 118 "OP_DUP" .dup,
   ofStack 119 "OP_NIP" .nip,
   ofStack 120 "OP_OVER" .copyOver,
   ofStack 121 "OP_PICK" .pick,
   ofStack 122 "OP_ROLL" .roll,
   ofStack 123 "OP_ROT" .rot,
   ofStack 124 "OP_SWAP" .swap,
   ofStack 125 "OP_TUCK" .tuck,
   ofStack 130 "OP_SIZE" .size,
   ofStack 135 "OP_EQUAL" .equal,
   ofStack 136 "OP_EQUALVERIFY" .equalVerify]

def arithmetic : List Opcode :=
  [ofStack 139 "OP_1ADD" (.unary .add1),
   ofStack 140 "OP_1SUB" (.unary .sub1),
   ofStack 143 "OP_NEGATE" (.unary .negate),
   ofStack 144 "OP_ABS" (.unary .abs),
   ofStack 145 "OP_NOT" (.unary .not),
   ofStack 146 "OP_0NOTEQUAL" (.unary .nonZero),
   ofStack 147 "OP_ADD" (.binary .add),
   ofStack 148 "OP_SUB" (.binary .sub),
   ofStack 149 "OP_MUL" (.binary .mul),
   ofStack 154 "OP_BOOLAND" (.binary .boolAnd),
   ofStack 155 "OP_BOOLOR" (.binary .boolOr),
   ofStack 156 "OP_NUMEQUAL" (.binary .numEqual),
   ofStack 157 "OP_NUMEQUALVERIFY" .numEqualVerify,
   ofStack 158 "OP_NUMNOTEQUAL" (.binary .numNotEqual),
   ofStack 159 "OP_LESSTHAN" (.binary .lessThan),
   ofStack 160 "OP_GREATERTHAN" (.binary .greaterThan),
   ofStack 161 "OP_LESSTHANOREQUAL" (.binary .lessThanOrEqual),
   ofStack 162 "OP_GREATERTHANOREQUAL" (.binary .greaterThanOrEqual),
   ofStack 163 "OP_MIN" (.binary .min),
   ofStack 164 "OP_MAX" (.binary .max),
   ofStack 165 "OP_WITHIN" .within]

def crypto : List Opcode :=
  [ofStack 166 "OP_RIPEMD160" (.digest .ripemd160),
   ofStack 167 "OP_SHA1" (.digest .sha1),
   ofStack 168 "OP_SHA256" (.digest .sha256),
   ofStack 169 "OP_HASH160" (.digest .hash160),
   ofStack 170 "OP_HASH256" (.digest .hash256),
   ⟨171, "OP_CODESEPARATOR", none⟩,
   ofSignature 172 "OP_CHECKSIG" .checkSig,
   ofSignature 173 "OP_CHECKSIGVERIFY" .checkSigVerify,
   ofSignature 174 "OP_CHECKMULTISIG" .checkMultisig,
   ofSignature 175 "OP_CHECKMULTISIGVERIFY" .checkMultisigVerify]

def locks : List Opcode :=
  [ofStack 176 "OP_NOP1" .nop,
   ⟨177, "OP_CHECKLOCKTIMEVERIFY", some (.lock .checkLocktime)⟩,
   ⟨178, "OP_CHECKSEQUENCEVERIFY", some (.lock .checkSequence)⟩,
   ofStack 179 "OP_NOP4" .nop,
   ofStack 180 "OP_NOP5" .nop,
   ofStack 181 "OP_NOP6" .nop,
   ofStack 182 "OP_NOP7" .nop,
   ofStack 183 "OP_NOP8" .nop,
   ofStack 184 "OP_NOP9" .nop,
   ofStack 185 "OP_NOP10" .nop]

def all : List Opcode :=
  constants ++ flow ++ elements ++ arithmetic ++ crypto ++ locks

def find? (code : UInt8) : Option Opcode :=
  all.find? fun opcode => opcode.code = code

-- A byte without a name is shown by its number.
def nameOf (code : UInt8) : String :=
  match find? code with
  | some opcode => opcode.name
  | none => "OP_[" ++ toString code ++ "]"

def operation? (code : UInt8) : Option Operation :=
  (find? code).bind Opcode.operation

theorem exists_mem_of_operation? {code : UInt8} {operation : Operation}
    (h : operation? code = some operation) :
    ∃ opcode ∈ all, opcode.code = code ∧ opcode.operation = some operation := by
  obtain ⟨opcode, hfind, hoperation⟩ := Option.bind_eq_some_iff.mp h
  rw [find?] at hfind
  have hcode : opcode.code = code := by simpa using List.find?_some hfind
  exact ⟨opcode, List.mem_of_find?_eq_some hfind, hcode, hoperation⟩

theorem operation?_dup : operation? dup = some (.stack .dup) := by decide

theorem operation?_hash160 : operation? hash160 = some (.stack (.digest .hash160)) := by decide

theorem operation?_equalVerify : operation? equalVerify = some (.stack .equalVerify) := by decide

theorem operation?_checkSig : operation? checkSig = some (.signature .checkSig) := by decide

theorem operation?_checkMultisig :
    operation? checkMultisig = some (.signature .checkMultisig) := by decide

end Opcode

end BitcoinSpend
