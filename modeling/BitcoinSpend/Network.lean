import BitcoinSpend.Error

namespace BitcoinSpend

inductive Network where
  | main
  | test
deriving DecidableEq

namespace Network

-- The version byte in front of a key hash.
def keyVersion : Network → UInt8
  | main => 0x00
  | test => 0x6f

-- The version byte in front of a script hash.
def scriptVersion : Network → UInt8
  | main => 0x05
  | test => 0xc4

-- The version byte in front of an exported secret.
def wifVersion : Network → UInt8
  | main => 0x80
  | test => 0xef

def name : Network → String
  | main => "main"
  | test => "test"

def ofName (name : String) : Except Error Network :=
  if name = "main" ∨ name = "mainnet" then .ok main
  else if name = "test" ∨ name = "testnet" then .ok test
  else .error (.format (.unknownNetwork name))

def ofWifVersion? (version : UInt8) : Option Network :=
  if version = main.wifVersion then some main
  else if version = test.wifVersion then some test
  else none

end Network

end BitcoinSpend
