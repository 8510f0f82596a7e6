import BitcoinSpend.Proofs.Base58.Bijection
import BitcoinSpend.Script.Template

namespace BitcoinSpend

namespace Base58

theorem length_checksum (payload : Bytes) : (checksum payload).length = 4 := by
  rw [checksum, List.length_take, (hash256 payload).length_eq]
  rfl

-- The last four bytes are the checksum of all that stands before them.
theorem decodeChecked_iff_decode {text : String} {payload : Bytes} :
    decodeChecked text = .ok payload ↔ decode text = .ok (payload ++ checksum payload) := by
  simp only [decodeChecked, bind_eq_ok_iff, unless_eq_ok_iff, not_not]
  constructor
  · rintro ⟨bytes, hdecode, -, hchecksum, hpayload⟩
    cases hpayload
    rw [hdecode, hchecksum, List.take_append_drop]
  · intro hdecode
    have hlength : (payload ++ checksum payload).length - 4 = payload.length := by
      rw [List.length_append, length_checksum, Nat.add_sub_cancel]
    have hlong : ¬ (payload ++ checksum payload).length < 4 := by
      rw [List.length_append, length_checksum]
      omega
    refine ⟨_, hdecode, hlong, ?_⟩
    rw [hlength, List.take_left, List.drop_left]
    exact ⟨rfl, rfl⟩

-- No other spelling of a checked text is read.
theorem decodeChecked_iff {text : String} {payload : Bytes} :
    decodeChecked text = .ok payload ↔ text = encodeChecked payload := by
  rw [decodeChecked_iff_decode, encodeChecked]
  constructor
  · intro hdecode
    exact (encode_of_decode hdecode).symm
  · rintro rfl
    exact decode_encode _

theorem encodeChecked_inj {payload other : Bytes} :
    encodeChecked payload = encodeChecked other ↔ payload = other := by
  constructor
  · intro htexts
    have hpayload := decodeChecked_iff.mpr (Eq.refl (encodeChecked payload))
    have hother := decodeChecked_iff.mpr htexts
    exact Except.ok.inj (hpayload.symm.trans hother)
  · exact congrArg encodeChecked

end Base58

namespace Address

-- What an address names by its hash.
inductive Kind where
  | key
  | script
deriving DecidableEq

namespace Kind

def locking : Kind → FixedBytes 20 → Script
  | key => Script.payToKeyHash
  | script => Script.payToScriptHash

def version : Kind → Network → UInt8
  | key => Network.keyVersion
  | script => Network.scriptVersion

theorem version_inj {kind other : Kind} {network network' : Network} :
    kind.version network = other.version network' ↔ kind = other ∧ network = network' := by
  cases kind <;> cases other <;> cases network <;> cases network' <;> decide

theorem address_locking (kind : Kind) (network : Network) (hash : FixedBytes 20) :
    (kind.locking hash).address network =
      .ok (Base58.encodeChecked (kind.version network :: hash.bytes)) := by
  cases kind with
  | key =>
      have hkey : (Script.payToKeyHash hash).keyHash? = some hash :=
        Script.keyHash?_eq_some_iff.mpr rfl
      rw [locking, Script.address, hkey]
      rfl
  | script =>
      have hkey : (Script.payToScriptHash hash).keyHash? = none := rfl
      have hscript : (Script.payToScriptHash hash).scriptHash? = some hash :=
        Script.scriptHash?_eq_some_iff.mpr rfl
      rw [locking, Script.address, hkey, hscript]
      rfl

end Kind

theorem hash_encodeChecked (version : UInt8) (hash : FixedBytes 20) :
    Address.hash (Base58.encodeChecked (version :: hash.bytes)) = .ok hash := by
  have hlength : (version :: hash.bytes).length = 21 := by
    rw [List.length_cons, hash.length_eq]
  rw [Address.hash, Base58.decodeChecked_iff.mpr rfl]
  exact dif_pos hlength

-- A text names one kind of recipient on one network, and its hash is read back.
theorem address_canonical :
    (∀ text payload, Base58.decodeChecked text = .ok payload ↔
      text = Base58.encodeChecked payload) ∧
    (∀ (kind other : Kind) (network network' : Network) (hash hash' : FixedBytes 20),
      (kind.locking hash).address network = (other.locking hash').address network' ↔
        kind = other ∧ network = network' ∧ hash = hash') ∧
    ∀ (kind : Kind) (network : Network) (hash : FixedBytes 20), ∃ text,
      (kind.locking hash).address network = .ok text ∧ Address.hash text = .ok hash := by
  refine ⟨fun text payload => Base58.decodeChecked_iff, ?_, ?_⟩
  · intro kind other network network' hash hash'
    rw [Kind.address_locking, Kind.address_locking, Except.ok.injEq, Base58.encodeChecked_inj,
      List.cons.injEq, Kind.version_inj, FixedBytes.bytes_inj, and_assoc]
  · intro kind network hash
    exact ⟨_, kind.address_locking network hash, hash_encodeChecked _ hash⟩

end Address

end BitcoinSpend
